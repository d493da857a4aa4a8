import AppL.Lsm.Merge
import AppL.Lsm.Target
import AppL.Lsm.Ownership

/-!
# Merging, seen from outside

A merge as a transition system that does not know about summary pages, rounds and iterators:
every source has a list of entries that are left, and in each step an old entry is dropped,
the smallest entry is taken, the entries that were taken are written to the target, or a
whole block is moved.  The invariants of a merge are proved here.
-/

namespace AppL

open Transition

/-- The pieces of the list have been invalidated one after another. -/
inductive Dev.Clears {δ : Type} (g : Geometry) : Dev δ → List ℕ → Dev δ → Prop
  | nil (dev : Dev δ) : Clears g dev [] dev
  | cons {dev dev₁ dev' : Dev δ} {q : ℕ} {qs : List ℕ} (hq : dev.Invalidates g dev₁ q)
      (hqs : Clears g dev₁ qs dev') : Clears g dev (q :: qs) dev'

/-- Pieces that are held are invalidated once each. -/
theorem Dev.Holds.clears {δ : Type} {g : Geometry} {dev dev' : Dev δ} {qs held : List ℕ}
    (h : dev.Clears g qs dev') :
  dev.Holds (qs ++ held) → dev'.Holds held ∧ dev'.data = dev.data ∧
    (dev.Balanced g → dev'.Balanced g)
  := by
  induction h with
  | nil dev =>
      intro hh
      use hh, rfl, id
  | cons hq hqs ih =>
      intro hh
      have hset := (hh.mem _).mpr (List.mem_append.mpr (.inl (List.mem_cons_self ..)))
      obtain ⟨hh', hdata, hbal⟩ := ih (hh.invalidates hq)
      use hh', hdata.trans hq.data
      intro hb
      apply hbal (hq.balanced hset hb)

/-- An entry of the run with info `idx` that a newer run owns, by the rank of the run, or by the
rank that the flagged block of the entry had before it was moved. -/
def ShortcutMaster.oldEntry (sc : ShortcutMaster) (idx : ℕ) (e : Entry) : Bool :=
  !sc.validityCheckLba idx e.lba ||
    e.orig.any fun o => !sc.validityCheckByValue idx o.1 o.2 e.lba

/-- What the owner of an lba has is not old. -/
theorem ShortcutMaster.oldEntry_owner {sc : ShortcutMaster} {idx : ℕ} {e : Entry}
    (h : sc.scMap e.lba = some idx) :
  sc.oldEntry idx e = false
  := by
  have hfst : sc.validityCheckLba idx e.lba = true := by
    simp [validityCheckLba, h, recencyCmp_self]
  cases ho : e.orig with
  | none => simp [oldEntry, hfst, ho]
  | some o => simp [oldEntry, hfst, ho, validityCheckByValue, h]

/-- The target takes over a block. -/
def Run.takeSte {δ : Type} (r : Run δ) (ste : Ste) (n : ℕ) : Run δ :=
  { r with
    stBody := { r.stBody with
      stes := r.stBody.stes ++ [ste]
      cur := Ste.empty
      writing := false
      inblockWritePointer := 0 }
    nowEntryNum := r.nowEntryNum + n }

/-- The state of a merge: for every source its info and the entries that are left, the
entries that have been taken, each with the source it is from, and the pieces of the summary
pages that the sources still have. -/
structure Merging (δ : Type) where
  srcs : List (ℕ × List Entry)
  sorted : List (ℕ × Entry)
  sums : List ℕ
  res : Run δ
  sc : ShortcutMaster
  dev : Dev δ

namespace Merging

variable {δ : Type}

/-- A source without its entries of an lba. -/
def dropLba (lba : ℕ) (x : ℕ × List Entry) : ℕ × List Entry :=
  (x.1, x.2.filter fun e => e.lba ≠ lba)

/-- The pieces that the other sources have for the lba of the entry that is taken. -/
def others (e : Entry) (srcs : List (ℕ × List Entry)) : List ℕ :=
  srcs.flatMap fun x => (x.2.filter fun e' => e'.lba = e.lba ∧ e'.psa ≠ e.psa).map (·.psa)

/-- The lbas of a moved block that its source still owns, or may take. -/
def validLbas (sc : ShortcutMaster) (idx : ℕ) (es : List Entry) : List ℕ :=
  (es.map (·.lba)).filter (sc.validityCheckLba idx ·)

/-- The shortcut after the lbas that are not valid are counted for the target. -/
def countUnlinked (sc : ShortcutMaster) (idx n : ℕ) : ShortcutMaster :=
  sc.updateInfo idx fun i => { i with unlinkedLbaNum := i.unlinkedLbaNum + n }

/-- The entry that a moved block has in the target. -/
def moved (sc : ShortcutMaster) (idx : ℕ) (ste : Ste) (mf : Option MapFunction) : Ste :=
  MergeState.movedSte (sc.infoSet idx)
    ((validLbas sc idx ste.entries).length != ste.entries.length) { ste with mf := mf }

/-- A step of a merge, which may move the blocks `moves` of the sources. -/
inductive Step (g : Geometry) (moves : ℕ → Ste → Prop) : Merging δ → Merging δ → Prop
  /-- The smallest entry, which is old, is dropped. -/
  | skip {m : Merging δ} {as bs : List (ℕ × List Entry)} {idx : ℕ} {e : Entry}
      {l : List Entry} {dev : Dev δ}
      (hsrcs : m.srcs = as ++ (idx, e :: l) :: bs)
      (hold : m.sc.oldEntry idx e = true)
      (hdev : m.dev.Invalidates g dev e.psa)
      (hmin : ∀ x ∈ m.srcs, ∀ e' ∈ x.2, e.lba ≤ e'.lba) :
      Step g moves m { m with srcs := as ++ (idx, l) :: bs, dev := dev }
  /-- The smallest entry, which is not old, is taken, and those of the other sources with
  this lba are dropped. -/
  | push {m : Merging δ} {as bs : List (ℕ × List Entry)} {idx : ℕ} {e : Entry}
      {l : List Entry} {dev : Dev δ}
      (hsrcs : m.srcs = as ++ (idx, e :: l) :: bs)
      (hnew : m.sc.oldEntry idx e = false)
      (hmin : ∀ x ∈ m.srcs, ∀ e' ∈ x.2, e.lba ≤ e'.lba)
      (hdev : m.dev.Clears g (others e (as ++ bs)) dev) :
      Step g moves m { m with
        srcs := as.map (dropLba e.lba) ++ (idx, l) :: bs.map (dropLba e.lba)
        sorted := m.sorted ++ [(idx, e)]
        dev := dev }
  /-- The entries that have been taken are written to the target and linked to it. -/
  | flush {m : Merging δ} {res : Run δ} {sc sc' : ShortcutMaster} {dev dev' : Dev δ}
      (hdev : m.dev.Clears g (m.sorted.map (·.2.psa)) dev)
      (hres : Run.insertAll g (m.sorted.map fun x => (x.2.lba, m.dev.data x.2.psa)) m.res m.sc
        dev = .ok (res, sc, dev'))
      (hsc : sc.linkBulkLba res.info (m.sorted.map (·.2.lba)) = .ok sc') :
      Step g moves m { m with sorted := [], res := res, sc := sc', dev := dev' }
  /-- A block of a source, whose range no other source meets, is moved to the target. -/
  | move {m : Merging δ} {as bs : List (ℕ × List Entry)} {idx : ℕ} {ste : Ste}
      {l : List Entry} {sums : List ℕ} {res : Run δ} {sc : ShortcutMaster} {dev : Dev δ}
      {mf : Option MapFunction}
      (hsrcs : m.srcs = as ++ (idx, ste.entries ++ l) :: bs)
      (hsorted : m.sorted = [])
      (hmeta : ste.Meta g) (hne : ste.page ≠ []) (hcopied : ste.copied = false)
      (hflag : ste.unlinkedDataCopy = false)
      (hapart : ∀ x ∈ as ++ bs, ∀ e ∈ x.2, ste.endLba < e.lba)
      (hsums : m.sums.Perm (ste.piecePpa :: sums))
      (hres : m.res.paddingCurrentBlock g m.dev = .ok (res, dev))
      (hsc : (countUnlinked m.sc res.info
        (ste.entries.length - (validLbas m.sc idx ste.entries).length)).linkBulkLba res.info
        (validLbas m.sc idx ste.entries) = .ok sc)
      (hmoves : moves as.length ste) :
      Step g moves m { m with
        srcs := as ++ (idx, l) :: bs
        sums := sums
        res := res.takeSte (moved m.sc idx ste mf) ste.entries.length
        sc := sc
        dev := dev }

/-! ### Order and pieces -/

/-- The lbas on their way to the target and in it. -/
def out (m : Merging δ) : List ℕ := m.res.lbas ++ m.sorted.map (·.2.lba)

/-- The pieces of the entries that are left in the sources. -/
def left (srcs : List (ℕ × List Entry)) : List ℕ := srcs.flatMap fun x => x.2.map (·.psa)

/-- The pieces that are valid and not in the target, when `held` are those of other runs. -/
def rest (m : Merging δ) (held : List ℕ) : List ℕ :=
  left m.srcs ++ (m.sorted.map (·.2.psa) ++ (m.sums ++ held))

/-- The entries are in the order of their lbas, first those of the target, then those that
have been taken, then those left in the sources; and the pieces of all of them, and no
others, are valid. -/
structure Inv (g : Geometry) (range : ℕ) (held : List ℕ) (dev₀ : Dev δ) (m : Merging δ) :
    Prop where
  opened : m.res.Open g
  srcs_lt : ∀ x ∈ m.srcs, ∀ e ∈ x.2, e.lba < range
  out_lt : ∀ lba ∈ m.out, lba < range
  asc : ∀ x ∈ m.srcs, x.2.Pairwise fun a b => a.lba < b.lba
  out_asc : m.out.Pairwise (· < ·)
  below : ∀ lba ∈ m.out, ∀ x ∈ m.srcs, ∀ e ∈ x.2, lba < e.lba
  holds : m.dev.Holds (m.res.psas ++ m.res.sums ++ m.rest held)
  balanced : m.dev.Balanced g
  data : ∀ q ∈ held, m.dev.data q = dev₀.data q

variable {g : Geometry} {moves : ℕ → Ste → Prop} {range : ℕ} {held : List ℕ} {dev₀ : Dev δ}
  {m m' : Merging δ}

theorem left_cons (as bs : List (ℕ × List Entry)) (idx : ℕ) (l : List Entry) :
  (left (as ++ (idx, l) :: bs)).Perm (l.map (·.psa) ++ left (as ++ bs))
  := by
  simp only [left, List.flatMap_append, List.flatMap_cons]
  rw [List.perm_iff_count]
  intro q
  simp only [List.count_append]
  omega

/-- Members of the sources when one of them changes. -/
theorem mem_srcs {as bs : List (ℕ × List Entry)} {y x : ℕ × List Entry}
    (h : x ∈ as ++ y :: bs) :
  x = y ∨ x ∈ as ++ bs
  := by
  rw [List.mem_append, List.mem_cons] at h
  rw [List.mem_append]
  tauto

theorem Inv.skip {as bs : List (ℕ × List Entry)} {idx : ℕ} {e : Entry} {l : List Entry}
    {dev : Dev δ} (h : m.Inv g range held dev₀) (hsrcs : m.srcs = as ++ (idx, e :: l) :: bs)
    (hdev : m.dev.Invalidates g dev e.psa) :
  Inv g range held dev₀ { m with srcs := as ++ (idx, l) :: bs, dev := dev }
  := by
  have hmem : ∀ x ∈ as ++ (idx, l) :: bs, ∃ y ∈ m.srcs, x.1 = y.1 ∧ x.2.Sublist y.2 := by
    intro x hx
    rcases mem_srcs hx with rfl | hx
    · refine ⟨(idx, e :: l), ?_, rfl, List.sublist_cons_self _ _⟩
      rw [hsrcs]
      simp
    · refine ⟨x, ?_, rfl, List.Sublist.refl _⟩
      rw [hsrcs]
      simp only [List.mem_append, List.mem_cons] at hx ⊢
      tauto
  have hrest : (m.rest held).Perm (e.psa ::
      rest { m with srcs := as ++ (idx, l) :: bs, dev := dev } held) := by
    rw [rest, rest, hsrcs]
    have h₁ := left_cons as bs idx (e :: l)
    have h₂ := left_cons as bs idx l
    rw [List.map_cons, List.cons_append] at h₁
    apply (h₁.trans (h₂.symm.cons _)).append_right _
  have hh : m.dev.Holds (e.psa :: (m.res.psas ++ m.res.sums ++
      rest { m with srcs := as ++ (idx, l) :: bs, dev := dev } held)) := by
    apply h.holds.perm
    apply List.Perm.trans (hrest.append_left _)
    apply List.perm_middle
  have hset := (hh.mem e.psa).mpr (List.mem_cons_self ..)
  refine ⟨h.opened, ?_, h.out_lt, ?_, h.out_asc, ?_, hh.invalidates hdev,
    hdev.balanced hset h.balanced, ?_⟩
  · intro x hx e' he'
    obtain ⟨y, hy, -, hsub⟩ := hmem x hx
    apply h.srcs_lt y hy e' (hsub.subset he')
  · intro x hx
    obtain ⟨y, hy, -, hsub⟩ := hmem x hx
    apply (h.asc y hy).sublist hsub
  · intro lba hlba x hx e' he'
    obtain ⟨y, hy, -, hsub⟩ := hmem x hx
    apply h.below lba hlba y hy e' (hsub.subset he')
  · intro q hq
    rw [hdev.data]
    apply h.data q hq

/-- The sources after an entry has been taken. -/
theorem mem_push (as bs : List (ℕ × List Entry)) (idx : ℕ) {e : Entry} {l : List Entry}
    {x : ℕ × List Entry} (hasc : (e :: l).Pairwise fun a b => a.lba < b.lba)
    (hx : x ∈ as.map (dropLba e.lba) ++ (idx, l) :: bs.map (dropLba e.lba)) :
  ∃ y ∈ as ++ (idx, e :: l) :: bs, x.1 = y.1 ∧ x.2.Sublist y.2 ∧
    (∀ e' ∈ x.2, e'.lba ≠ e.lba) ∧ ∀ e' ∈ y.2, e'.lba ≠ e.lba → e' ∈ x.2
  := by
  rcases mem_srcs hx with rfl | hx
  · refine ⟨(idx, e :: l), by simp, rfl, List.sublist_cons_self _ _, ?_, ?_⟩
    · intro e' he'
      apply (Nat.ne_of_lt ((List.pairwise_cons.mp hasc).1 e' he')).symm
    · intro e' he' hne
      rcases List.mem_cons.mp he' with rfl | he'
      · exact absurd rfl hne
      · apply he'
  · rw [← List.map_append] at hx
    obtain ⟨y, hy, rfl⟩ := List.mem_map.mp hx
    refine ⟨y, ?_, rfl, List.filter_sublist, ?_, ?_⟩
    · simp only [List.mem_append, List.mem_cons] at hy ⊢
      tauto
    · intro e' he'
      simpa using (List.mem_filter.mp he').2
    · intro e' he' hne
      apply List.mem_filter.mpr ⟨he', by simpa using hne⟩

/-- The entries of the other sources with the lba are dropped, the rest is left. -/
theorem left_perm_others {e : Entry} {srcs : List (ℕ × List Entry)}
    (hne : ∀ x ∈ srcs, ∀ e' ∈ x.2, e'.psa ≠ e.psa) :
  (left srcs).Perm (others e srcs ++ left (srcs.map (dropLba e.lba)))
  := by
  induction srcs with
  | nil => apply List.Perm.refl _
  | cons x srcs ih =>
      have hrest := ih (fun y hy => hne y (by simp [hy]))
      have hfst : (x.2.map (·.psa)).Perm
          ((x.2.filter fun e' => e'.lba = e.lba ∧ e'.psa ≠ e.psa).map (·.psa)
            ++ (x.2.filter fun e' => e'.lba ≠ e.lba).map (·.psa)) := by
        rw [← List.map_append]
        apply List.Perm.map
        have heq : x.2.filter (fun e' => e'.lba = e.lba ∧ e'.psa ≠ e.psa)
            = x.2.filter fun e' => e'.lba = e.lba := by
          apply List.filter_congr
          intro e' he'
          have := hne x (by simp) e' he'
          simp [this]
        rw [heq]
        have hsplit := List.filter_append_perm (fun e' : Entry => decide (e'.lba = e.lba)) x.2
        simpa using hsplit.symm
      simp only [left, others, List.flatMap_cons, List.map_cons, dropLba] at hrest hfst ⊢
      rw [List.perm_iff_count] at hrest hfst ⊢
      intro q
      have h₁ := hrest q
      have h₂ := hfst q
      simp only [List.count_append] at h₁ h₂ ⊢
      omega

theorem Inv.push {as bs : List (ℕ × List Entry)} {idx : ℕ} {e : Entry} {l : List Entry}
    {dev : Dev δ} (h : m.Inv g range held dev₀) (hsrcs : m.srcs = as ++ (idx, e :: l) :: bs)
    (hmin : ∀ x ∈ m.srcs, ∀ e' ∈ x.2, e.lba ≤ e'.lba)
    (hdev : m.dev.Clears g (others e (as ++ bs)) dev) :
  Inv g range held dev₀ { m with
    srcs := as.map (dropLba e.lba) ++ (idx, l) :: bs.map (dropLba e.lba)
    sorted := m.sorted ++ [(idx, e)]
    dev := dev }
  := by
  have hself : (idx, e :: l) ∈ m.srcs := by
    rw [hsrcs]
    simp
  have hasc := h.asc _ hself
  have hmem := fun x hx => mem_push as bs idx (x := x) hasc hx
  rw [← hsrcs] at hmem
  have hout : out { m with
      srcs := as.map (dropLba e.lba) ++ (idx, l) :: bs.map (dropLba e.lba)
      sorted := m.sorted ++ [(idx, e)]
      dev := dev } = m.out ++ [e.lba] := by
    simp [out]
  have hleft := left_cons as bs idx (e :: l)
  have hnd : (e.psa :: left (as ++ bs)).Nodup := by
    have hnd := h.holds.nodup
    rw [rest, hsrcs] at hnd
    have hnd' := (List.nodup_append.mp (List.nodup_append.mp hnd).2.1).1
    rw [hleft.nodup_iff, List.map_cons, List.cons_append, List.nodup_cons] at hnd'
    rw [List.nodup_cons]
    refine ⟨?_, (List.nodup_append.mp hnd'.2).2.1⟩
    intro hin
    apply hnd'.1
    apply List.mem_append.mpr (.inr hin)
  have hother : ∀ x ∈ as ++ bs, ∀ e' ∈ x.2, e'.psa ≠ e.psa := by
    intro x hx e' he' heq
    apply (List.nodup_cons.mp hnd).1
    rw [left, List.mem_flatMap]
    use x, hx, List.mem_map.mpr ⟨e', he', heq⟩
  have hperm := left_perm_others hother
  have hleft' := left_cons (as.map (dropLba e.lba)) (bs.map (dropLba e.lba)) idx l
  have hh : m.dev.Holds (others e (as ++ bs) ++ (m.res.psas ++ m.res.sums ++
      rest { m with
        srcs := as.map (dropLba e.lba) ++ (idx, l) :: bs.map (dropLba e.lba)
        sorted := m.sorted ++ [(idx, e)]
        dev := dev } held)) := by
    apply h.holds.perm
    rw [rest, rest, hsrcs]
    rw [← List.map_append] at hleft'
    rw [List.perm_iff_count] at hleft hleft' hperm ⊢
    intro q
    have h₁ := hleft q
    have h₂ := hleft' q
    have h₃ := hperm q
    simp only [List.map_append, List.map_cons, List.map_nil, List.count_append,
      List.count_cons, List.count_nil] at h₁ h₂ h₃ ⊢
    omega
  obtain ⟨hh', hdata, hbal⟩ := Dev.Holds.clears hdev hh
  refine ⟨h.opened, ?_, ?_, ?_, ?_, ?_, hh', hbal h.balanced, ?_⟩
  · intro x hx e' he'
    obtain ⟨y, hy, -, hsub, -⟩ := hmem x hx
    apply h.srcs_lt y hy e' (hsub.subset he')
  · rw [hout]
    intro lba hlba
    rcases List.mem_append.mp hlba with hlba | hlba
    · apply h.out_lt lba hlba
    · rw [List.mem_singleton.mp hlba]
      apply h.srcs_lt _ hself e (by simp)
  · intro x hx
    obtain ⟨y, hy, -, hsub, -⟩ := hmem x hx
    apply (h.asc y hy).sublist hsub
  · rw [hout, List.pairwise_append]
    use h.out_asc, List.pairwise_singleton _ _
    intro lba hlba lba' hlba'
    rw [List.mem_singleton.mp hlba']
    apply h.below lba hlba _ hself e (by simp)
  · rw [hout]
    intro lba hlba x hx e' he'
    obtain ⟨y, hy, -, hsub, hne, -⟩ := hmem x hx
    rcases List.mem_append.mp hlba with hlba | hlba
    · apply h.below lba hlba y hy e' (hsub.subset he')
    · rw [List.mem_singleton.mp hlba]
      apply lt_of_le_of_ne (hmin y hy e' (hsub.subset he'))
      apply (hne e' he').symm
  · intro q hq
    rw [hdata]
    apply h.data q hq

theorem Inv.flush {res : Run δ} {sc : ShortcutMaster} {dev dev' : Dev δ}
    (h : m.Inv g range held dev₀) (hrange : range ≤ uint32Max)
    (hdev : m.dev.Clears g (m.sorted.map (·.2.psa)) dev)
    (hres : Run.insertAll g (m.sorted.map fun x => (x.2.lba, m.dev.data x.2.psa)) m.res m.sc
      dev = .ok (res, sc, dev')) (sc' : ShortcutMaster) :
  Inv g range held dev₀ { m with sorted := [], res := res, sc := sc', dev := dev' } ∧
    m.res.Grows g (left m.srcs ++ (m.sums ++ held)) res dev dev'
      (m.sorted.map fun x => (x.2.lba, m.dev.data x.2.psa)) ∧ sc = m.sc ∧
    dev.data = m.dev.data ∧ res.nowEntryNum = m.res.nowEntryNum + m.sorted.length
  := by
  have hh : m.dev.Holds (m.sorted.map (·.2.psa) ++ (m.res.psas ++ m.res.sums ++
      (left m.srcs ++ (m.sums ++ held)))) := by
    apply h.holds.perm
    rw [rest, List.perm_iff_count]
    intro q
    simp only [List.count_append]
    omega
  obtain ⟨hh', hdata, hbal⟩ := Dev.Holds.clears hdev hh
  have hlbas : ∀ x ∈ m.sorted.map (fun x => (x.2.lba, m.dev.data x.2.psa)),
      x.1 ≤ uint32Max := by
    intro x hx
    obtain ⟨y, hy, rfl⟩ := List.mem_map.mp hx
    have hlt : y.2.lba < range := by
      apply h.out_lt
      apply List.mem_append.mpr (.inr (List.mem_map.mpr ⟨y, hy, rfl⟩))
    apply Nat.le_of_lt (Nat.lt_of_lt_of_le hlt hrange)
  obtain ⟨hopen, hgrow, hsc, hnow⟩ := Run.insertAll_grows _ hlbas h.opened hh' hres
  have hout : out { m with sorted := [], res := res, sc := sc', dev := dev' } = m.out := by
    simp only [out, hgrow.lbas, List.map_map, List.map_nil, List.append_nil]
    rfl
  refine ⟨⟨hopen, h.srcs_lt, ?_, h.asc, ?_, ?_, hgrow.holds,
    hgrow.balanced (hbal h.balanced), ?_⟩, hgrow, hsc, hdata, ?_⟩
  · rw [hout]
    apply h.out_lt
  · rw [hout]
    apply h.out_asc
  · rw [hout]
    apply h.below
  · intro q hq
    rw [hgrow.data q (by simp [hq]), hdata]
    apply h.data q hq
  · simpa using hnow

/-- What a block that is moved adds to the target. -/
theorem takeSte_open {r : Run δ} {ste : Ste} {n : ℕ} (hr : r.Open g)
    (hnil : r.stBody.cur.page = []) (hbuf : r.buffered = []) (hmeta : ste.Meta g)
    (hne : ste.page ≠ []) (hcopied : ste.copied = false) :
  (r.takeSte ste n).Open g ∧ (r.takeSte ste n).entries = r.entries ++ ste.entries ∧
    (r.takeSte ste n).sums = r.sums ++ [ste.piecePpa] ∧ (r.takeSte ste n).buffered = []
  := by
  have hpos := g.maxSectorInBlock_pos
  refine ⟨⟨hr.type, ⟨rfl, Nat.zero_le _, ?_, rfl, Ste.meta_empty g, rfl, rfl⟩, hpos, rfl, ?_,
    ?_, ?_⟩, ?_, ?_, hbuf⟩
  · have halert := Run.alert_eq_false hr.filling hr.lt
    simp only [Run.takeSte, halert, Ste.empty, List.length_nil, Bool.false_eq_true, false_iff]
    omega
  · apply hr.short
  · apply hr.lba_le
  · intro ste' hste'
    simp only [Run.takeSte, List.mem_append, List.mem_singleton] at hste'
    rcases hste' with hste' | rfl
    · apply hr.stes ste' hste'
    · use hmeta, hne, hcopied
  · simp [Run.takeSte, Run.entries, Ste.entries, Ste.empty, hnil]
  · simp [Run.takeSte, Run.sums]

theorem moved_meta {ste : Ste} (h : ste.Meta g) (sc : ShortcutMaster) (idx : ℕ)
    (mf : Option MapFunction) :
  (moved sc idx ste mf).Meta g
  := ⟨h.start_le, h.start_mem, h.start_top, h.le_end, h.end_mem, h.end_bot, h.piece, h.dvd,
    h.sorted, h.length_le⟩

theorem Inv.move {as bs : List (ℕ × List Entry)} {idx : ℕ} {ste ste' : Ste}
    {l : List Entry} {sums : List ℕ} {res : Run δ} {dev : Dev δ}
    (h : m.Inv g range held dev₀) (hsrcs : m.srcs = as ++ (idx, ste.entries ++ l) :: bs)
    (hsorted : m.sorted = []) (hmeta : ste.Meta g) (hmeta' : ste'.Meta g)
    (hne : ste.page ≠ []) (hcopied : ste'.copied = false) (hpage : ste'.page = ste.page)
    (hpiece : ste'.piecePpa = ste.piecePpa)
    (hapart : ∀ x ∈ as ++ bs, ∀ e ∈ x.2, ste.endLba < e.lba)
    (hsums : m.sums.Perm (ste.piecePpa :: sums))
    (hres : m.res.paddingCurrentBlock g m.dev = .ok (res, dev)) (n : ℕ)
    (sc : ShortcutMaster) :
  Inv g range held dev₀ { m with
    srcs := as ++ (idx, l) :: bs, sums := sums, res := res.takeSte ste' n, sc := sc,
    dev := dev } ∧
    m.res.Grows g (m.rest held) res m.dev dev [] ∧ res.nowEntryNum = m.res.nowEntryNum ∧
    (res.takeSte ste' n).lbas = m.res.lbas ++ ste.entries.map (·.lba)
  := by
  have hself : (idx, ste.entries ++ l) ∈ m.srcs := by
    rw [hsrcs]
    simp
  obtain ⟨hopen, hgrow, hnil, hbuf, hnow, -⟩ :=
    Run.paddingCurrentBlock_grows h.opened h.holds hres
  obtain ⟨hopen', hentries, hsums', hbuf'⟩ :=
    takeSte_open (n := n) hopen hnil hbuf hmeta' (hpage ▸ hne) hcopied
  have hlbas : ste'.entries.map (·.lba) = ste.entries.map (·.lba) := by
    simp [Ste.entries, hpage]
  have hpsas : ste'.entries.map (·.psa) = ste.entries.map (·.psa) := by
    simp [Ste.entries, hpage]
  have hres_lbas : (res.takeSte ste' n).lbas = m.res.lbas ++ ste.entries.map (·.lba) := by
    have hl := hgrow.lbas
    rw [List.map_nil, List.append_nil] at hl
    rw [← hl, Run.lbas, Run.lbas, hentries, hbuf', hbuf, List.map_append, hlbas]
    simp
  have hout : out { m with
      srcs := as ++ (idx, l) :: bs, sums := sums, res := res.takeSte ste' n, sc := sc,
      dev := dev } = m.out ++ ste.entries.map (·.lba) := by
    simp only [out, hsorted, List.map_nil, List.append_nil, hres_lbas]
  have hasc := h.asc _ hself
  rw [List.pairwise_append] at hasc
  have hmem : ∀ x ∈ as ++ (idx, l) :: bs, ∃ y ∈ m.srcs, x.1 = y.1 ∧ x.2.Sublist y.2 ∧
      ∀ e ∈ x.2, ∀ e' ∈ ste.entries, e'.lba < e.lba := by
    intro x hx
    rcases mem_srcs hx with rfl | hx
    · refine ⟨_, hself, rfl, List.sublist_append_right _ _, ?_⟩
      intro e he e' he'
      apply hasc.2.2 e' he' e he
    · refine ⟨x, ?_, rfl, List.Sublist.refl _, ?_⟩
      · rw [hsrcs]
        simp only [List.mem_append, List.mem_cons] at hx ⊢
        tauto
      · intro e he e' he'
        obtain ⟨p, hp, rfl⟩ := List.mem_map.mp he'
        apply Nat.lt_of_le_of_lt (hmeta.le_end p hp) (hapart x hx e he)
  have hlt : ∀ e ∈ ste.entries, e.lba < range := by
    intro e he
    apply h.srcs_lt _ hself e (by simp [he])
  refine ⟨⟨hopen', ?_, ?_, ?_, ?_, ?_, ?_, hgrow.balanced h.balanced, ?_⟩, hgrow, hnow,
    hres_lbas⟩
  · intro x hx e he
    obtain ⟨y, hy, -, hsub, -⟩ := hmem x hx
    apply h.srcs_lt y hy e (hsub.subset he)
  · rw [hout]
    intro lba hlba
    rcases List.mem_append.mp hlba with hlba | hlba
    · apply h.out_lt lba hlba
    · obtain ⟨e, he, rfl⟩ := List.mem_map.mp hlba
      apply hlt e he
  · intro x hx
    obtain ⟨y, hy, -, hsub, -⟩ := hmem x hx
    apply (h.asc y hy).sublist hsub
  · rw [hout, List.pairwise_append, List.pairwise_map]
    use h.out_asc, hasc.1
    intro lba hlba lba' hlba'
    obtain ⟨e, he, rfl⟩ := List.mem_map.mp hlba'
    apply h.below lba hlba _ hself e (by simp [he])
  · rw [hout]
    intro lba hlba x hx e he
    obtain ⟨y, hy, -, hsub, habove⟩ := hmem x hx
    rcases List.mem_append.mp hlba with hlba | hlba
    · apply h.below lba hlba y hy e (hsub.subset he)
    · obtain ⟨e', he', rfl⟩ := List.mem_map.mp hlba
      apply habove e he e' he'
  · apply hgrow.holds.perm
    have h₁ := left_cons as bs idx (ste.entries ++ l)
    have h₂ := left_cons as bs idx l
    rw [rest, rest, hsrcs, hsorted, hsums', Run.psas, Run.psas, hentries, hpiece]
    rw [List.perm_iff_count] at h₁ h₂ hsums ⊢
    intro q
    have h₃ := h₁ q
    have h₄ := h₂ q
    have h₅ := hsums q
    simp only [List.map_append, hpsas, List.map_nil, List.count_append, List.count_cons,
      List.count_nil] at h₃ h₄ h₅ ⊢
    omega
  · intro q hq
    rw [hgrow.data q (by simp [rest, hq])]
    apply h.data q hq

/-- Every step of a merge keeps the order and the pieces. -/
theorem Step.inv (hrange : range ≤ uint32Max) (hstep : Step g moves m m')
    (h : m.Inv g range held dev₀) :
  m'.Inv g range held dev₀
  := by
  cases hstep with
  | skip hsrcs hold hdev => apply h.skip hsrcs hdev
  | push hsrcs hnew hmin hdev => apply h.push hsrcs hmin hdev
  | flush hdev hres hsc => apply (h.flush hrange hdev hres _).1
  | move hsrcs hsorted hmeta hne hcopied hflag hapart hsums hres hsc =>
      apply (h.move hsrcs hsorted hmeta (moved_meta hmeta _ _ _) hne hcopied rfl rfl hapart
        hsums hres _ _).1

/-! ### Owners -/

/-- Every lba that a source owns is left in it or has been taken, what the target owns is in
it, and no other run gets an lba.  The counters agree with the owners. -/
structure Linked (range : ℕ) (sc₀ : ShortcutMaster) (m : Merging δ) : Prop where
  fresh : m.res.info ∉ m.srcs.map (·.1)
  owned : ∀ x ∈ m.srcs, ∀ lba, m.sc.scMap lba = some x.1 →
    lba ∈ x.2.map (·.lba) ∨ lba ∈ m.sorted.map (·.2.lba)
  res_owned : ∀ lba, m.sc.scMap lba = some m.res.info → lba ∈ m.res.lbas
  old : ∀ lba i, m.sc.scMap lba = some i → i = m.res.info ∨ sc₀.scMap lba = some i
  assigned : ∀ lba, sc₀.scMap lba ≠ none → m.sc.scMap lba ≠ none
  total : ∀ i, i ≠ m.res.info → m.sc.total range i = sc₀.total range i
  count : m.res.nowEntryNum = m.sc.total range m.res.info
  rank : ∀ i, (m.sc.infoSet i).SameRank (sc₀.infoSet i)
  freeQ : m.sc.freeQ = sc₀.freeQ
  nowRecency : m.sc.nowRecency = sc₀.nowRecency

/-- The shortcut after the target has been linked to lbas that it holds. -/
theorem Linked.link {sc₀ sc₁ sc' : ShortcutMaster} {lbas : List ℕ} {n : ℕ}
    (h : m.Linked range sc₀) (hlt : ∀ lba ∈ lbas, lba < range)
    (hsc₁ : sc₁ = countUnlinked m.sc m.res.info n)
    (hsc : sc₁.linkBulkLba m.res.info lbas = .ok sc') :
  (∀ x, sc'.scMap x = if x ∈ lbas then some m.res.info else m.sc.scMap x) ∧
    (∀ lba i, sc'.scMap lba = some i → i = m.res.info ∨ sc₀.scMap lba = some i) ∧
    (∀ lba, sc₀.scMap lba ≠ none → sc'.scMap lba ≠ none) ∧
    (∀ i, i ≠ m.res.info → sc'.total range i = sc₀.total range i) ∧
    sc'.total range m.res.info = m.sc.total range m.res.info + n + lbas.length ∧
    (∀ i, (sc'.infoSet i).SameRank (sc₀.infoSet i)) ∧ sc'.freeQ = sc₀.freeQ ∧
    sc'.nowRecency = sc₀.nowRecency
  := by
  obtain ⟨hmap, hrank, hfree, hnow, htotal⟩ := ShortcutMaster.linkBulkLba_ok hsc
  have hmap₁ : sc₁.scMap = m.sc.scMap := by
    rw [hsc₁]
    rfl
  have htotal₁ : ∀ i, sc₁.total range i
      = m.sc.total range i + if i = m.res.info then n else 0 := by
    intro i
    rw [ShortcutMaster.total, ShortcutMaster.total, ShortcutMaster.owned,
      ShortcutMaster.owned, hmap₁, hsc₁]
    simp only [countUnlinked, ShortcutMaster.updateInfo, Function.update_apply]
    split
    · rename_i heq
      rw [heq]
      apply Nat.add_right_comm _ _ _
    · omega
  have hrank₁ : ∀ i, (sc₁.infoSet i).SameRank (m.sc.infoSet i) := by
    intro i
    rw [hsc₁]
    apply ShortcutMaster.sameRank_update
    exact ⟨rfl, rfl, rfl, rfl⟩
  rw [hmap₁] at hmap
  refine ⟨hmap, ?_, ?_, ?_, ?_, ?_, ?_, ?_⟩
  · intro lba i hi
    rw [hmap] at hi
    split at hi
    · cases hi
      left
      rfl
    · apply h.old lba i hi
  · intro lba hlba
    rw [hmap]
    split
    · simp
    · apply h.assigned lba hlba
  · intro i hi
    rw [htotal range hlt, htotal₁, if_neg hi, if_neg hi, h.total i hi]
    rfl
  · rw [htotal range hlt, htotal₁, if_pos rfl, if_pos rfl]
  · intro i
    exact ((hrank i).trans (hrank₁ i)).trans (h.rank i)
  · rw [hfree, hsc₁, ← h.freeQ]
    rfl
  · rw [hnow, hsc₁, ← h.nowRecency]
    rfl

/-- Dropping an old entry keeps the owners: none of them has it. -/
theorem Linked.skip {sc₀ : ShortcutMaster} {as bs : List (ℕ × List Entry)} {idx : ℕ} {e : Entry}
    {l : List Entry} {dev : Dev δ} (h : m.Linked range sc₀)
    (hsrcs : m.srcs = as ++ (idx, e :: l) :: bs) (hold : m.sc.oldEntry idx e = true) :
  Linked range sc₀ { m with srcs := as ++ (idx, l) :: bs, dev := dev }
  := by
  have hinfos : (as ++ (idx, l) :: bs).map (·.1) = m.srcs.map (·.1) := by
    rw [hsrcs]
    simp
  refine ⟨?_, ?_, h.res_owned, h.old, h.assigned, h.total, h.count, h.rank, h.freeQ,
    h.nowRecency⟩
  · rw [hinfos]
    apply h.fresh
  · intro x hx lba hlba
    rcases mem_srcs hx with rfl | hx
    · rcases h.owned (idx, e :: l) (by simp [hsrcs]) lba hlba with hmem | hmem
      · have hne : lba ≠ e.lba := by
          rintro rfl
          rw [ShortcutMaster.oldEntry_owner hlba] at hold
          cases hold
        left
        apply (List.mem_cons.mp hmem).resolve_left hne
      · right
        apply hmem
    · apply h.owned x _ lba hlba
      rw [hsrcs]
      simp only [List.mem_append, List.mem_cons] at hx ⊢
      tauto

/-- Taking the smallest entry keeps the owners: it is on its way to the target. -/
theorem Linked.push {sc₀ : ShortcutMaster} {as bs : List (ℕ × List Entry)} {idx : ℕ} {e : Entry}
    {l : List Entry} {dev : Dev δ} (h : m.Linked range sc₀)
    (hsrcs : m.srcs = as ++ (idx, e :: l) :: bs)
    (hasc : (e :: l).Pairwise fun a b => a.lba < b.lba) :
  Linked range sc₀ { m with
    srcs := as.map (dropLba e.lba) ++ (idx, l) :: bs.map (dropLba e.lba)
    sorted := m.sorted ++ [(idx, e)]
    dev := dev }
  := by
  have hinfos : (as.map (dropLba e.lba) ++ (idx, l) :: bs.map (dropLba e.lba)).map (·.1)
      = m.srcs.map (·.1) := by
    rw [hsrcs]
    simp only [List.map_append, List.map_cons, List.map_map]
    rfl
  refine ⟨?_, ?_, h.res_owned, h.old, h.assigned, h.total, h.count, h.rank, h.freeQ,
    h.nowRecency⟩
  · rw [hinfos]
    apply h.fresh
  · intro x hx lba hlba
    obtain ⟨y, hy, hidx, -, -, hkeep⟩ := mem_push as bs idx hasc hx
    rw [hidx] at hlba
    rw [List.map_append, List.mem_append]
    rcases h.owned y (hsrcs ▸ hy) lba hlba with hmem | hmem
    · obtain ⟨e', he', rfl⟩ := List.mem_map.mp hmem
      by_cases heq : e'.lba = e.lba
      · right
        right
        simp [heq]
      · left
        apply List.mem_map_of_mem (hkeep e' he' heq)
    · right
      left
      apply hmem

/-- Writing what has been taken keeps the owners: the target holds it and is linked to it. -/
theorem Linked.flush {sc₀ sc sc' : ShortcutMaster} {res : Run δ} {dev dev' : Dev δ}
    (hrange : range ≤ uint32Max) (h : m.Linked range sc₀) (hinv : m.Inv g range held dev₀)
    (hdev : m.dev.Clears g (m.sorted.map (·.2.psa)) dev)
    (hres : Run.insertAll g (m.sorted.map fun x => (x.2.lba, m.dev.data x.2.psa)) m.res m.sc
      dev = .ok (res, sc, dev'))
    (hsc : sc.linkBulkLba res.info (m.sorted.map (·.2.lba)) = .ok sc') :
  Linked range sc₀ { m with sorted := [], res := res, sc := sc', dev := dev' }
  := by
  obtain ⟨-, hgrow, rfl, -, hnow⟩ := hinv.flush hrange hdev hres sc'
  have hlt : ∀ lba ∈ m.sorted.map (·.2.lba), lba < range := by
    intro lba hlba
    apply hinv.out_lt lba
    apply List.mem_append_right _ hlba
  rw [hgrow.shape.info] at hsc
  obtain ⟨hmap, hold, hassigned, htotal, hcount, hrank, hfree, hrec⟩ :=
    h.link (n := 0) hlt (by simp [countUnlinked, ShortcutMaster.updateInfo]) hsc
  have hlbas := hgrow.lbas
  rw [List.map_map] at hlbas
  refine ⟨?_, ?_, ?_, ?_, hassigned, ?_, ?_, hrank, hfree, hrec⟩
  · rw [hgrow.shape.info]
    apply h.fresh
  · intro x hx lba hlba
    rw [hmap] at hlba
    split at hlba
    · exact absurd (List.mem_map.mpr ⟨x, hx, (Option.some.inj hlba).symm⟩) h.fresh
    · rename_i hnot
      left
      apply (h.owned x hx lba hlba).resolve_right hnot
  · intro lba hlba
    rw [hgrow.shape.info, hmap] at hlba
    rw [hlbas, List.mem_append]
    split at hlba
    · rename_i hmem
      right
      apply hmem
    · left
      apply h.res_owned lba hlba
  · intro lba i hi
    rw [hgrow.shape.info]
    apply hold lba i hi
  · intro i hi
    rw [hgrow.shape.info] at hi
    apply htotal i hi
  · rw [hgrow.shape.info, hcount, hnow, h.count, List.length_map, Nat.add_zero]

/-- An lba that the source of a moved block owns is valid in it. -/
theorem mem_validLbas_of_owned {sc : ShortcutMaster} {idx lba : ℕ} {es : List Entry}
    (hlba : sc.scMap lba = some idx) (hmem : lba ∈ es.map (·.lba)) :
  lba ∈ validLbas sc idx es
  := by
  rw [validLbas, List.mem_filter]
  use hmem
  simp [ShortcutMaster.validityCheckLba, hlba, recencyCmp_self]

theorem length_validLbas_le (sc : ShortcutMaster) (idx : ℕ) (es : List Entry) :
  (validLbas sc idx es).length ≤ es.length
  := by
  have := List.length_filter_le (sc.validityCheckLba idx ·) (es.map (·.lba))
  simpa [validLbas] using this

/-- Moving a block keeps the owners: the target holds its lbas and is linked to those that its
source owns, the others are counted as unlinked. -/
theorem Linked.move {sc₀ sc : ShortcutMaster} {as bs : List (ℕ × List Entry)} {idx : ℕ} {ste : Ste}
    {l : List Entry} {sums : List ℕ} {res : Run δ} {dev : Dev δ} {mf : Option MapFunction}
    (h : m.Linked range sc₀) (hinv : m.Inv g range held dev₀)
    (hsrcs : m.srcs = as ++ (idx, ste.entries ++ l) :: bs) (hsorted : m.sorted = [])
    (hmeta : ste.Meta g) (hne : ste.page ≠ []) (hcopied : ste.copied = false)
    (hapart : ∀ x ∈ as ++ bs, ∀ e ∈ x.2, ste.endLba < e.lba)
    (hsums : m.sums.Perm (ste.piecePpa :: sums))
    (hres : m.res.paddingCurrentBlock g m.dev = .ok (res, dev))
    (hsc : (countUnlinked m.sc res.info
      (ste.entries.length - (validLbas m.sc idx ste.entries).length)).linkBulkLba res.info
      (validLbas m.sc idx ste.entries) = .ok sc) :
  Linked range sc₀ { m with
    srcs := as ++ (idx, l) :: bs
    sums := sums
    res := res.takeSte (moved m.sc idx ste mf) ste.entries.length
    sc := sc
    dev := dev }
  := by
  obtain ⟨-, hgrow, hnow, hlbas⟩ := hinv.move hsrcs hsorted hmeta
    (moved_meta hmeta m.sc idx mf) hne hcopied rfl rfl hapart hsums hres
    ste.entries.length sc
  have hself : (idx, ste.entries ++ l) ∈ m.srcs := by
    rw [hsrcs]
    simp
  have hlt : ∀ lba ∈ validLbas m.sc idx ste.entries, lba < range := by
    intro lba hlba
    obtain ⟨e, he, rfl⟩ := List.mem_map.mp (List.mem_filter.mp hlba).1
    apply hinv.srcs_lt _ hself e (by simp [he])
  rw [hgrow.shape.info] at hsc
  obtain ⟨hmap, hold, hassigned, htotal, hcount, hrank, hfree, hrec⟩ := h.link hlt rfl hsc
  have hinfo : (res.takeSte (moved m.sc idx ste mf) ste.entries.length).info
      = m.res.info := hgrow.shape.info
  have hfresh : m.res.info ∉ (as ++ (idx, l) :: bs).map (·.1) := by
    have hinfos : (as ++ (idx, l) :: bs).map (·.1) = m.srcs.map (·.1) := by
      rw [hsrcs]
      simp
    rw [hinfos]
    apply h.fresh
  refine ⟨?_, ?_, ?_, ?_, hassigned, ?_, ?_, hrank, hfree, hrec⟩
  · rw [hinfo]
    apply hfresh
  · intro x hx lba hlba
    rw [hmap] at hlba
    split at hlba
    · exact absurd (List.mem_map.mpr ⟨x, hx, (Option.some.inj hlba).symm⟩) hfresh
    · rename_i hnot
      rcases mem_srcs hx with rfl | hx
      · rcases h.owned _ hself lba hlba with hmem | hmem
        · rw [List.map_append, List.mem_append] at hmem
          left
          apply hmem.resolve_left
          intro hste
          apply hnot (mem_validLbas_of_owned hlba hste)
        · right
          apply hmem
      · apply h.owned x _ lba hlba
        rw [hsrcs]
        simp only [List.mem_append, List.mem_cons] at hx ⊢
        tauto
  · intro lba hlba
    rw [hinfo, hmap] at hlba
    rw [hlbas, List.mem_append]
    split at hlba
    · rename_i hmem
      right
      apply (List.mem_filter.mp hmem).1
    · left
      apply h.res_owned lba hlba
  · intro lba i hi
    rw [hinfo]
    apply hold lba i hi
  · intro i hi
    rw [hinfo] at hi
    apply htotal i hi
  · have hle := length_validLbas_le m.sc idx ste.entries
    have hnum : (res.takeSte (moved m.sc idx ste mf) ste.entries.length).nowEntryNum
        = res.nowEntryNum + ste.entries.length := rfl
    rw [hinfo, hcount, hnum, hnow, h.count]
    omega

/-- Every step of a merge keeps the owners and the counters. -/
theorem Step.linked {sc₀ : ShortcutMaster} (hrange : range ≤ uint32Max)
    (hstep : Step g moves m m') (hinv : m.Inv g range held dev₀) (h : m.Linked range sc₀) :
  m'.Linked range sc₀
  := by
  cases hstep with
  | skip hsrcs hold hdev => apply h.skip hsrcs hold
  | @push as bs idx e l dev hsrcs hnew hmin hdev =>
      apply h.push hsrcs (hinv.asc (idx, e :: l) (by simp [hsrcs]))
  | flush hdev hres hsc => apply h.flush hrange hinv hdev hres hsc
  | move hsrcs hsorted hmeta hne hcopied hflag hapart hsums hres hsc =>
      apply h.move hinv hsrcs hsorted hmeta hne hcopied hapart hsums hres hsc

end Merging

end AppL
