import AppL.Lib.Portions
import AppL.Lsm.Invalidation

/-!
# Room in the table of a target

The table of a target has room for twice the blocks that the entries of the sources would fill,
while a merge closes a block that is not full whenever it moves one.  A merge moves a block only
when all lbas below it are gone, and at this moment every block of the sources is either whole or
gone; so the blocks of the target, with one for every block of the sources that is not gone, are
never more than the blocks of the sources.  When these fit into the table, it never gets full.
-/

namespace AppL

open Transition

variable {δ : Type} {g : Geometry}

/-- The failure is not that of a table that is full. -/
def Abort.NotFull (e : Abort) : Prop := e ≠ .sortedTableFull

theorem notFull_of (e : Abort) (_ : e.ofLoop = false) (h : e.ofWrite = false) :
  e.NotFull
  := by
  rintro rfl
  cases h

/-! ### Writing to a run -/

namespace Run

variable {r r' : Run δ} {dev dev' : Dev δ}

/-- A run with fewer places taken than `n` blocks have. -/
theorem not_tableFull {n : ℕ} (hlt : r.filled g < g.maxSectorInBlock * n)
    (hn : n ≤ r.stBody.maxSteNum) :
  ¬ r.TableFull
  := by
  have hnow : g.maxSectorInBlock * r.stBody.nowSteNum < g.maxSectorInBlock * n := by
    unfold filled at hlt
    omega
  have := Nat.lt_of_mul_lt_mul_left hnow
  unfold TableFull
  omega

/-- A run with places behind the finished blocks. -/
theorem not_tableFull_of_tail {n : ℕ} (htail : r.tail ≠ [])
    (hle : r.filled g ≤ g.maxSectorInBlock * n) (hn : n ≤ r.stBody.maxSteNum) :
  ¬ r.TableFull
  := by
  have hnow : g.maxSectorInBlock * r.stBody.nowSteNum < g.maxSectorInBlock * n := by
    have := List.length_pos_iff.mpr htail
    unfold filled at hle
    omega
  have := Nat.lt_of_mul_lt_mul_left hnow
  unfold TableFull
  omega

/-- The blocks of a run, with `w` further ones, when their places are those of at most `n`
blocks. -/
theorem closedNum_le {w n : ℕ}
    (hle : r.filled g + g.maxSectorInBlock * w ≤ g.maxSectorInBlock * n) :
  r.closedNum + w ≤ n
  := by
  have hpos := g.maxSectorInBlock_pos
  have hsum := Nat.mul_add g.maxSectorInBlock r.stBody.nowSteNum w
  unfold filled at hle
  unfold closedNum
  split
  · rw [Nat.add_zero]
    apply Nat.le_of_mul_le_mul_left _ hpos
    omega
  · rename_i htail
    have := List.length_pos_iff.mpr htail
    have hlt : r.stBody.nowSteNum + w < n := by
      apply Nat.lt_of_mul_lt_mul_left (a := g.maxSectorInBlock)
      omega
    omega

theorem writePieces_room {lbas : List ℕ} (hroom : lbas ≠ [] → ¬ r.TableFull) :
  Meets Abort.NotFull (fun x => r.SameTable x.2.1) (writePieces g lbas r dev)
  := by
  apply writePieces_meets notFull_of
  · intro _
    apply Abort.noConfusion
  · intro hne hfull
    exact absurd hfull (hroom hne)

theorem insert_room {sc : ShortcutMaster} {lba : ℕ} {d : δ} (hroom : ¬ r.TableFull) :
  Meets Abort.NotFull (fun x => r.SameKind x.1 ∧ sc.KeepsOwned x.2.1) (r.insert g sc dev lba d)
  := insert_meets notFull_of (writePieces_room fun _ => hroom)

theorem paddingCurrentBlock_room (hroom : ¬ r.TableFull) :
  Meets Abort.NotFull (fun x => r.SameKind x.1) (r.paddingCurrentBlock g dev)
  := by
  apply paddingCurrentBlock_meets notFull_of (writePieces_room fun _ => hroom)
  intro hfull
  exact absurd hfull hroom

theorem insertDone_room (hroom : r.buffered ≠ [] → ¬ r.TableFull) :
  Meets Abort.NotFull (fun x => r.SameKind x.1) (r.insertDone g dev)
  := by
  apply insertDone_meets_of_writes notFull_of
  apply writePieces_room
  intro hne
  apply hroom
  apply mt List.map_eq_nil_iff.mpr hne

theorem insertAll_kind (xs : List (ℕ × δ)) :
  ∀ {r : Run δ} {sc sc' : ShortcutMaster} {dev : Dev δ},
    insertAll g xs r sc dev = .ok (r', sc', dev') → r.SameKind r'
  := by
  induction xs with
  | nil =>
      intro r sc sc' dev h
      cases h
      apply SameKind.refl
  | cons x xs ih =>
      intro r sc sc' dev h
      simp only [insertAll, bind_eq_ok] at h
      obtain ⟨⟨r₁, sc₁, dev₁⟩, hins, hrest⟩ := h
      have hkind := (insert_meets (E := fun _ => True) (fun _ _ _ => trivial)
        (writePieces_meets (fun _ _ _ => trivial) _ (fun _ => trivial)
          fun _ _ => trivial)).of_ok hins
      apply hkind.1.trans (ih hrest)

theorem paddingCurrentBlock_kind (h : r.paddingCurrentBlock g dev = .ok (r', dev')) :
  r.SameKind r'
  := (paddingCurrentBlock_meets (E := fun _ => True) (fun _ _ _ => trivial)
    (writePieces_meets (fun _ _ _ => trivial) _ (fun _ => trivial) fun _ _ => trivial)
    fun _ => trivial).of_ok h

/-- Sectors are inserted as long as there are places for them. -/
theorem Laid.insertAll_room {n : ℕ} (xs : List (ℕ × δ)) :
  ∀ {r : Run δ} {sc : ShortcutMaster} {dev : Dev δ}, r.Laid g → r.Room g →
    (∀ x ∈ xs, x.1 ≤ uint32Max) → (xs.map (·.1)).Pairwise (· < ·) → (∀ x ∈ xs, r.Below x.1) →
    r.filled g + xs.length ≤ g.maxSectorInBlock * n → n ≤ r.stBody.maxSteNum →
    Meets Abort.NotFull (fun x => r.SameKind x.1 ∧ sc.KeepsOwned x.2.1)
      (Run.insertAll g xs r sc dev)
  := by
  induction xs with
  | nil =>
      intro r sc dev _ _ _ _ _ _ _
      use .refl r, .refl sc
  | cons x xs ih =>
      intro r sc dev hr hroom hle hasc hbelow hfilled hn
      rw [List.length_cons] at hfilled
      rw [List.map_cons, List.pairwise_cons] at hasc
      have hhead : ∀ y ∈ xs, x.1 < y.1 := fun y hy => hasc.1 y.1 (List.mem_map_of_mem hy)
      unfold Run.insertAll
      apply ((insert_room (not_tableFull (g := g) (by omega) hn)).with_ok fun _ h => h).bind
      rintro ⟨r₁, sc₁, dev₁⟩ ⟨⟨hkind, hsc⟩, hins⟩
      simp only [Run.insert, hr.type, bind_eq_ok, require_eq_ok] at hins
      obtain ⟨-, -, ⟨r₂, dev₂⟩, hsec, hret⟩ := hins
      cases hret
      obtain ⟨hlaid, hroom', -, hfilled', hnext⟩ := hr.insertSector hroom (hle x List.mem_cons_self)
        (hbelow x List.mem_cons_self) hsec
      have hrest := @ih r₂ sc dev₂ hlaid hroom' (fun y hy => hle y (List.mem_cons_of_mem _ hy))
        hasc.2 (fun y hy => hnext y.1 (hhead y hy) (hbelow y (List.mem_cons_of_mem _ hy)))
        (by omega) (hkind.maxSteNum ▸ hn)
      apply hrest.mono
      rintro y ⟨hy, hysc⟩
      use hkind.trans hy, hysc

end Run

/-! ### The blocks of the sources -/

namespace Merging

variable {moves : ℕ → Ste → Prop} {m m' : Merging δ}

/-- The entries that are left, each with the position of its source. -/
def remaining (m : Merging δ) : Set (ℕ × Entry) :=
  {x | ∃ y, m.srcs[x.1]? = some y ∧ x.2 ∈ y.2}

/-- The portions divide the entries `all`, and a block that may be moved is a portion of the size
of a block, apart from the others. -/
structure Divided (g : Geometry) (moves : ℕ → Ste → Prop) (all : Set (ℕ × Entry))
    (ps : List (Portion (ℕ × Entry))) : Prop where
  cover : ∀ x ∈ all, ∃ b ∈ ps, x ∈ b.body
  sub : ∀ b ∈ ps, (b.body : Set (ℕ × Entry)) ⊆ all
  dvd : ∀ i ste, moves i ste → ∀ b ∈ ps, g.maxSectorInBlock ∣ b.size
  whole : ∀ i ste, moves i ste → ∃ b ∈ ps, b.size = g.maxSectorInBlock ∧
    ∀ x, x ∈ b.body ↔ x.1 = i ∧ x.2 ∈ ste.entries ∧ x ∈ all
  apart : ∀ i ste, moves i ste → ∀ b ∈ ps,
    (∀ x ∈ b.body, x.1 = i ∧ x.2 ∈ ste.entries) ∨ (∀ x ∈ b.body, x.2.lba < ste.startLba) ∨
      ∀ x ∈ b.body, ste.endLba < x.2.lba

/-- The places that are taken in the target, those that the taken entries will take, and those of
the portions together are at most the places of `n` blocks, for which the table has room. -/
structure Budget (g : Geometry) (all : Set (ℕ × Entry)) (ps : List (Portion (ℕ × Entry))) (n : ℕ)
    (m : Merging δ) : Prop where
  ordered : m.Ordered g
  sub : m.remaining ⊆ all
  gone : ∀ x ∈ all, x ∉ m.remaining → ∀ y ∈ m.remaining, x.2.lba ≤ y.2.lba
  room : m.res.filled g + m.sorted.length + Portion.total m.remaining ps
    ≤ g.maxSectorInBlock * n
  le : n ≤ m.res.stBody.maxSteNum

variable {all : Set (ℕ × Entry)} {ps : List (Portion (ℕ × Entry))} {n : ℕ}

/-- Entries are taken from the sources, at most one of which goes to the target. -/
theorem Budget.take (h : m.Budget g all ps n) (x₀ : ℕ × Entry) (hdiv : Divided g moves all ps)
    (hord : m'.Ordered g) (hres : m'.res = m.res)
    (hlen : m'.sorted.length ≤ m.sorted.length + 1) (hsub : m'.remaining ⊆ m.remaining)
    (hx : x₀ ∈ m.remaining) (hx' : x₀ ∉ m'.remaining)
    (hgone : ∀ x ∈ m.remaining, x ∉ m'.remaining → ∀ y ∈ m.remaining, x.2.lba ≤ y.2.lba) :
  m'.Budget g all ps n
  where
    ordered := hord
    sub := hsub.trans h.sub
    gone x hall hnot y hy := by
      by_cases hmem : x ∈ m.remaining
      · apply hgone x hmem hnot y (hsub hy)
      · apply h.gone x hall hmem y (hsub hy)
    room := by
      obtain ⟨b, hb, hmem⟩ := hdiv.cover x₀ (h.sub hx)
      have hlt := Portion.total_lt hsub hb hmem hx hx'
      have := h.room
      rw [hres]
      omega
    le := hres ▸ h.le

/-- The sources after one of them has changed. -/
theorem getElem?_replace {α : Type} (as bs : List α) (y y' : α) (k : ℕ) :
  (as ++ y' :: bs)[k]? = if k = as.length then some y' else (as ++ y :: bs)[k]?
  := by
  split
  · rename_i hk
    rw [hk, List.getElem?_append_right (Nat.le_refl _), Nat.sub_self, List.getElem?_cons_zero]
  · rename_i hk
    rcases Nat.lt_or_gt_of_ne hk with hlt | hlt
    · rw [List.getElem?_append_left hlt, List.getElem?_append_left hlt]
    · obtain ⟨j, hj⟩ := Nat.exists_eq_succ_of_ne_zero (Nat.sub_ne_zero_of_lt hlt)
      rw [List.getElem?_append_right (Nat.le_of_lt hlt), hj, List.getElem?_cons_succ,
        List.getElem?_append_right (Nat.le_of_lt hlt), hj, List.getElem?_cons_succ]

theorem mem_remaining {as bs : List (ℕ × List Entry)} {y : ℕ × List Entry} {x : ℕ × Entry}
    (h : m.srcs = as ++ y :: bs) :
  x ∈ m.remaining ↔ if x.1 = as.length then x.2 ∈ y.2 else
    ∃ z, (as ++ (0, []) :: bs)[x.1]? = some z ∧ x.2 ∈ z.2
  := by
  change (∃ z, m.srcs[x.1]? = some z ∧ x.2 ∈ z.2) ↔ _
  rw [h, getElem?_replace as bs (0, []) y]
  split
  · simp
  · rfl

theorem Budget.skip {as bs : List (ℕ × List Entry)} {idx : ℕ} {e : Entry} {l : List Entry}
    {dev : Dev δ} (h : m.Budget g all ps n) (hdiv : Divided g moves all ps)
    (hsrcs : m.srcs = as ++ (idx, e :: l) :: bs)
    (hmin : ∀ x ∈ m.srcs, ∀ e' ∈ x.2, e.lba ≤ e'.lba) :
  Budget g all ps n { m with srcs := as ++ (idx, l) :: bs, dev := dev }
  := by
  have hmem : ∀ x, x ∈ m.remaining ↔ _ := fun x => mem_remaining hsrcs
  have hmem' : ∀ x, x ∈ remaining { m with srcs := as ++ (idx, l) :: bs, dev := dev } ↔ _ :=
    fun x => mem_remaining rfl
  have hnotin : e ∉ l := by
    have hasc := h.ordered.asc (idx, e :: l) (hsrcs ▸ List.mem_append_right _ List.mem_cons_self)
    intro he
    exact absurd ((List.pairwise_cons.mp hasc).1 e he) (Nat.lt_irrefl _)
  apply h.take (as.length, e) hdiv (h.ordered.skip hsrcs) rfl (Nat.le_succ _)
  · intro x hx
    rw [hmem'] at hx
    rw [hmem]
    split
    · rename_i hk
      rw [if_pos hk] at hx
      apply List.mem_cons_of_mem _ hx
    · rename_i hk
      rw [if_neg hk] at hx
      apply hx
  · rw [hmem, if_pos rfl]
    apply List.mem_cons_self
  · rw [hmem', if_pos rfl]
    apply hnotin
  · intro x hx hnot y hy
    have hxe : x.2 = e := by
      rw [hmem] at hx
      rw [hmem'] at hnot
      split at hx
      · rename_i hk
        rw [if_pos hk] at hnot
        apply (List.mem_cons.mp hx).resolve_right hnot
      · rename_i hk
        rw [if_neg hk] at hnot
        exact absurd hx hnot
    obtain ⟨z, hz, hyz⟩ := hy
    rw [hxe]
    apply hmin z (List.mem_of_getElem? hz) y.2 hyz

/-- The sources without their entries of an lba. -/
theorem push_srcs {as bs : List (ℕ × List Entry)} {idx : ℕ} {e : Entry} {l : List Entry}
    (hasc : (e :: l).Pairwise fun a b => a.lba < b.lba) :
  as.map (dropLba e.lba) ++ (idx, l) :: bs.map (dropLba e.lba)
    = (as ++ (idx, e :: l) :: bs).map (dropLba e.lba)
  := by
  have hl : (e :: l).filter (fun e' => e'.lba ≠ e.lba) = l := by
    rw [List.filter_cons_of_neg (by simp), List.filter_eq_self]
    intro e' he'
    simpa using (Nat.ne_of_lt ((List.pairwise_cons.mp hasc).1 e' he')).symm
  rw [List.map_append, List.map_cons, dropLba, hl]

theorem Budget.push {as bs : List (ℕ × List Entry)} {idx : ℕ} {e : Entry} {l : List Entry}
    {dev : Dev δ} (h : m.Budget g all ps n) (hdiv : Divided g moves all ps)
    (hsrcs : m.srcs = as ++ (idx, e :: l) :: bs)
    (hmin : ∀ x ∈ m.srcs, ∀ e' ∈ x.2, e.lba ≤ e'.lba) :
  Budget g all ps n { m with
    srcs := as.map (dropLba e.lba) ++ (idx, l) :: bs.map (dropLba e.lba)
    sorted := m.sorted ++ [(idx, e)]
    dev := dev }
  := by
  have hord := @Ordered.push _ _ _ _ _ _ _ _ dev h.ordered hsrcs hmin
  have hself : (idx, e :: l) ∈ m.srcs := hsrcs ▸ List.mem_append_right _ List.mem_cons_self
  have hmem : ∀ x, x ∈ remaining { m with
      srcs := as.map (dropLba e.lba) ++ (idx, l) :: bs.map (dropLba e.lba)
      sorted := m.sorted ++ [(idx, e)]
      dev := dev } ↔ x ∈ m.remaining ∧ x.2.lba ≠ e.lba := by
    intro x
    change (∃ y, (as.map (dropLba e.lba) ++ (idx, l) :: bs.map (dropLba e.lba))[x.1]? = some y ∧
      x.2 ∈ y.2) ↔ (∃ y, m.srcs[x.1]? = some y ∧ x.2 ∈ y.2) ∧ x.2.lba ≠ e.lba
    rw [push_srcs (h.ordered.asc _ hself), ← hsrcs, List.getElem?_map]
    cases m.srcs[x.1]? with
    | none => simp
    | some y => simp [dropLba]
  apply h.take (as.length, e) hdiv hord rfl
  · rw [List.length_append, List.length_singleton]
  · intro x hx
    apply ((hmem x).mp hx).1
  · rw [mem_remaining hsrcs, if_pos rfl]
    apply List.mem_cons_self
  · intro hx
    exact absurd rfl ((hmem _).mp hx).2
  · intro x hx hnot y hy
    have hxe : x.2.lba = e.lba := by
      by_contra hne
      apply hnot
      apply (hmem x).mpr ⟨hx, hne⟩
    obtain ⟨z, hz, hyz⟩ := hy
    rw [hxe]
    apply hmin z (List.mem_of_getElem? hz) y.2 hyz

theorem Budget.flush {res : Run δ} {sc sc' : ShortcutMaster} {dev dev' : Dev δ}
    (h : m.Budget g all ps n)
    (hres : Run.insertAll g (m.sorted.map fun x => (x.2.lba, m.dev.data x.2.psa)) m.res m.sc
      dev = .ok (res, sc, dev')) :
  Budget g all ps n { m with sorted := [], res := res, sc := sc', dev := dev' }
  := by
  have hord := @Ordered.flush _ _ _ _ _ sc' _ _ h.ordered hres
  refine ⟨hord.1, h.sub, h.gone, ?_, ?_⟩
  · have hroom := h.room
    change res.filled g + 0 + Portion.total m.remaining ps ≤ _
    rw [hord.2]
    omega
  · exact (Run.insertAll_kind _ hres).maxSteNum ▸ h.le

/-- Below a block that is moved nothing is left. -/
theorem remaining_move {as bs : List (ℕ × List Entry)} {idx : ℕ} {ste : Ste} {l : List Entry}
    (h : m.Ordered g) (hsrcs : m.srcs = as ++ (idx, ste.entries ++ l) :: bs)
    (hmeta : ste.Meta g) (hne : ste.page ≠ [])
    (hapart : ∀ x ∈ as ++ bs, ∀ e ∈ x.2, ste.endLba < e.lba) (x : ℕ × Entry) :
  (x ∈ m.remaining ↔ x.1 = as.length ∧ x.2 ∈ ste.entries ∨
    x ∈ remaining { m with srcs := as ++ (idx, l) :: bs }) ∧
    (x ∈ remaining { m with srcs := as ++ (idx, l) :: bs } → ste.endLba < x.2.lba)
  := by
  have hself : (idx, ste.entries ++ l) ∈ m.srcs :=
    hsrcs ▸ List.mem_append_right _ List.mem_cons_self
  have hmem' : x ∈ remaining { m with srcs := as ++ (idx, l) :: bs } ↔ _ := mem_remaining rfl
  rw [mem_remaining hsrcs, hmem']
  split
  · rename_i hk
    rw [List.mem_append]
    constructor
    · simp [hk]
    · intro hx
      have hasc := h.asc _ hself
      obtain ⟨q, hq, hend⟩ := hmeta.end_mem hne
      rw [List.pairwise_append] at hasc
      rw [← hend]
      apply hasc.2.2 ⟨q.lba, q.piecePpa, ste.orig⟩ (List.mem_map_of_mem hq) x.2 hx
  · rename_i hk
    constructor
    · simp [hk]
    · rintro ⟨z, hz, hx⟩
      rcases mem_srcs (List.mem_of_getElem? hz) with rfl | hz
      · cases hx
      · apply hapart z hz x.2 hx

/-- When a block is moved, every portion is whole or gone. -/
theorem Budget.whole_or_gone {as bs : List (ℕ × List Entry)} {idx : ℕ} {ste : Ste}
    {l : List Entry} {b : Portion (ℕ × Entry)} (h : m.Budget g all ps n)
    (hdiv : Divided g moves all ps) (hsrcs : m.srcs = as ++ (idx, ste.entries ++ l) :: bs)
    (hmeta : ste.Meta g) (hne : ste.page ≠ [])
    (hapart : ∀ x ∈ as ++ bs, ∀ e ∈ x.2, ste.endLba < e.lba) (hmoves : moves as.length ste)
    (hb : b ∈ ps) :
  (b.body : Set (ℕ × Entry)) ⊆ m.remaining ∨ ∀ x ∈ b.body, x ∉ m.remaining
  := by
  have hmem := fun x => remaining_move h.ordered hsrcs hmeta hne hapart x
  rcases hdiv.apart as.length ste hmoves b hb with hself | hbelow | habove
  · left
    intro x hx
    apply (hmem x).1.mpr (.inl (hself x hx))
  · right
    intro x hx hin
    have hlt := hbelow x hx
    rcases (hmem x).1.mp hin with ⟨-, hentry⟩ | hin
    · have := (hmeta.covers_entry hentry).1
      omega
    · have := hmeta.start_le_end hne
      have := (hmem x).2 hin
      omega
  · left
    intro x hx
    by_contra hnot
    obtain ⟨p, hp⟩ := List.exists_mem_of_ne_nil _ hne
    have hentry : (⟨p.lba, p.piecePpa, ste.orig⟩ : Entry) ∈ ste.entries :=
      List.mem_map_of_mem hp
    have hfirst := h.gone x (hdiv.sub b hb hx) hnot (as.length, _)
      ((hmem (as.length, _)).1.mpr (.inl ⟨rfl, hentry⟩))
    have hle' : p.lba ≤ ste.endLba := (hmeta.covers_entry hentry).2
    exact absurd (habove x hx) (Nat.not_lt.mpr (Nat.le_trans hfirst hle'))

/-- The block that is moved is a portion that is taken as a whole. -/
theorem Budget.total_move {as bs : List (ℕ × List Entry)} {idx : ℕ} {ste : Ste}
    {l : List Entry} (h : m.Budget g all ps n) (hdiv : Divided g moves all ps)
    (hsrcs : m.srcs = as ++ (idx, ste.entries ++ l) :: bs) (hmeta : ste.Meta g)
    (hne : ste.page ≠ []) (hapart : ∀ x ∈ as ++ bs, ∀ e ∈ x.2, ste.endLba < e.lba)
    (hmoves : moves as.length ste) :
  Portion.total (remaining { m with srcs := as ++ (idx, l) :: bs }) ps + g.maxSectorInBlock
    ≤ Portion.total m.remaining ps
  := by
  have hmem := fun x => remaining_move h.ordered hsrcs hmeta hne hapart x
  obtain ⟨b, hb, hsize, hbody⟩ := hdiv.whole as.length ste hmoves
  obtain ⟨p, hp⟩ := List.exists_mem_of_ne_nil _ hne
  have hentry : (⟨p.lba, p.piecePpa, ste.orig⟩ : Entry) ∈ ste.entries := List.mem_map_of_mem hp
  rw [← hsize]
  apply Portion.total_take _ hb
  · intro x hx
    have hx' := (hbody x).mp hx
    apply (hmem x).1.mpr (.inl ⟨hx'.1, hx'.2.1⟩)
  · intro x hx hin
    have hle := (hmeta.covers_entry ((hbody x).mp hx).2.1).2
    exact absurd ((hmem x).2 hin) (Nat.not_lt.mpr hle)
  · refine ⟨(as.length, _), (hbody _).mpr ⟨rfl, hentry, ?_⟩⟩
    apply h.sub
    apply (hmem _).1.mpr (.inl ⟨rfl, hentry⟩)
  · intro x hx
    apply (hmem x).1.mpr (.inr hx)

theorem Budget.move {as bs : List (ℕ × List Entry)} {idx k : ℕ} {ste ste' : Ste}
    {l : List Entry} {sums : List ℕ} {res : Run δ} {sc : ShortcutMaster} {dev : Dev δ}
    (h : m.Budget g all ps n) (hdiv : Divided g moves all ps)
    (hord : Ordered g { m with
      srcs := as ++ (idx, l) :: bs, sums := sums, res := res.takeSte ste' k, sc := sc, dev := dev })
    (hsrcs : m.srcs = as ++ (idx, ste.entries ++ l) :: bs) (hsorted : m.sorted = [])
    (hmeta : ste.Meta g) (hne : ste.page ≠ [])
    (hapart : ∀ x ∈ as ++ bs, ∀ e ∈ x.2, ste.endLba < e.lba) (hmoves : moves as.length ste)
    (hres : m.res.paddingCurrentBlock g m.dev = .ok (res, dev)) :
  Budget g all ps n { m with
    srcs := as ++ (idx, l) :: bs, sums := sums, res := res.takeSte ste' k, sc := sc, dev := dev }
  := by
  have hmem := fun x => remaining_move h.ordered hsrcs hmeta hne hapart x
  have hsub : remaining { m with srcs := as ++ (idx, l) :: bs } ⊆ m.remaining :=
    fun x hx => (hmem x).1.mpr (.inr hx)
  refine ⟨hord, hsub.trans h.sub, ?_, ?_, ?_⟩
  · intro x hall hnot y hy
    by_cases hin : x ∈ m.remaining
    · have hentry := (((hmem x).1.mp hin).resolve_right hnot).2
      have hle := (hmeta.covers_entry hentry).2
      apply Nat.le_of_lt (Nat.lt_of_le_of_lt hle ((hmem y).2 hy))
    · apply h.gone x hall hin y (hsub hy)
  · have htake := h.total_move hdiv hsrcs hmeta hne hapart hmoves
    obtain ⟨w, hw⟩ := Portion.dvd_total (hdiv.dvd as.length ste hmoves)
      fun b hb => h.whole_or_gone hdiv hsrcs hmeta hne hapart hmoves hb
    have hlen : m.sorted.length = 0 := List.length_eq_zero_iff.mpr hsorted
    have hroom := h.room
    rw [hlen, Nat.add_zero, hw] at hroom
    obtain ⟨-, htail, -, hnum⟩ := h.ordered.laid.paddingCurrentBlock hres
    have hfilled : (res.takeSte ste' k).filled g
        = g.maxSectorInBlock * m.res.closedNum + g.maxSectorInBlock := by
      rw [Run.filled, Run.takeSte_tail htail, ← hnum, List.length_nil, Nat.add_zero, ← Nat.mul_succ]
      congr 1
      apply List.length_append
    have hblocks := Nat.mul_le_mul_left g.maxSectorInBlock (Run.closedNum_le hroom)
    rw [Nat.mul_add] at hblocks
    change (res.takeSte ste' k).filled g + m.sorted.length
      + Portion.total (remaining { m with srcs := as ++ (idx, l) :: bs }) ps ≤ _
    omega
  · change n ≤ res.stBody.maxSteNum
    rw [(Run.paddingCurrentBlock_kind hres).maxSteNum]
    apply h.le

/-- Every step of a merge keeps the budget. -/
theorem Budget.step (h : m.Budget g all ps n) (hdiv : Divided g moves all ps)
    (hstep : m.Step g moves m') :
  m'.Budget g all ps n
  := by
  have hord := h.ordered.step hstep
  cases hstep with
  | skip hsrcs _ _ hmin => apply h.skip hdiv hsrcs hmin
  | push hsrcs _ hmin _ => apply h.push hdiv hsrcs hmin
  | flush _ hres _ => apply h.flush hres
  | move hsrcs hsorted hmeta hne _ _ hapart _ hres _ hmoves =>
      apply h.move hdiv hord hsrcs hsorted hmeta hne hapart hmoves hres

theorem Budget.steps (h : m.Budget g all ps n) (hdiv : Divided g moves all ps)
    (hsteps : m.Steps g moves m') :
  m'.Budget g all ps n
  := by
  induction hsteps with
  | refl => apply h
  | tail _ hstep ih => apply ih.step hdiv hstep

/-- There is room for a further block as long as something is left in the sources. -/
theorem Budget.not_tableFull {x : ℕ × Entry} (h : m.Budget g all ps n)
    (hdiv : Divided g moves all ps) (hx : x ∈ m.remaining) :
  ¬ m.res.TableFull
  := by
  obtain ⟨b, hb, hmem⟩ := hdiv.cover x (h.sub hx)
  have hpos := Portion.total_pos hb hmem hx
  have hroom := h.room
  apply Run.not_tableFull (g := g) (n := n) (by omega) h.le

end Merging

/-! ### The beginning of a merge -/

section

variable {rset : List (Run δ)} {mapType : MapType} {n idx : ℕ} {force : Bool}
  {sc : ShortcutMaster} {dev : Dev δ}

theorem MergeInputs.block {r : Run δ} {ste : Ste} (h : MergeInputs g rset) (hr : r ∈ rset)
    (hste : ste ∈ r.stBody.stes) :
  ste.Meta g
  := by
  rcases h with h | ⟨r', hset, hlog⟩
  · apply ((h r hr).2.2.stes ste hste).1.self
  · rw [hset, List.mem_singleton] at hr
    rw [hr] at hste
    apply (hlog.done.stes ste hste).1

/-- Every entry of the tree of a log is in one of its blocks. -/
theorem Run.LogDone.exists_block {r : Run δ} {e : Entry} (h : r.LogDone g)
    (he : e ∈ r.treeEntries g) :
  ∃ ste ∈ r.stBody.stes, e ∈ ste.entries
  := by
  obtain ⟨x, hx, rfl⟩ := List.mem_map.mp he
  obtain ⟨p, hp, hlba⟩ := h.pair_of_mem hx
  obtain ⟨ste, hste, hin⟩ := h.paged _ p hp
  have hmem := List.mem_of_getElem? hste
  rcases List.mem_append.mp hmem with hmem | hmem
  · refine ⟨ste, hmem, List.mem_map.mpr ⟨p, List.mem_of_getElem? hin, ?_⟩⟩
    rw [← h.convert hp, hlba, Ste.orig, (h.stes ste hmem).2.2]
    rfl
  · rw [List.mem_singleton.mp hmem, h.nil] at hin
    cases hin

theorem MergeInputs.exists_block {r : Run δ} {e : Entry} (h : MergeInputs g rset) (hr : r ∈ rset)
    (he : e ∈ r.mergeEntries g) :
  ∃ ste ∈ r.stBody.stes, e ∈ ste.entries
  := by
  rcases h with h | ⟨r', hset, hlog⟩
  · obtain ⟨htype, -, hfin⟩ := h r hr
    rw [Run.mergeEntries, htype] at he
    obtain ⟨ste, hste, he⟩ := List.mem_flatMap.mp he
    rcases List.mem_append.mp hste with hste | hste
    · use ste, hste, he
    · rw [List.mem_singleton.mp hste, Ste.entries, hfin.nil] at he
      cases he
  · rw [hset, List.mem_singleton] at hr
    rw [hr] at he ⊢
    rw [Run.mergeEntries, hlog.done.type] at he
    apply hlog.done.exists_block he

open scoped Classical in
/-- The entries of a block that its source has when a merge begins. -/
noncomputable def Run.portion (g : Geometry) (r : Run δ) (i : ℕ) (ste : Ste) :
    Portion (ℕ × Entry) where
  size := max g.maxSectorInBlock ste.entries.length
  body := ((ste.entries.filter (· ∈ r.mergeEntries g)).map (i, ·)).toFinset
  card_le := by
    apply (List.toFinset_card_le _).trans
    rw [List.length_map]
    apply (List.length_filter_le _ _).trans (le_max_right _ _)

theorem Run.mem_portion {r : Run δ} {i : ℕ} {ste : Ste} {x : ℕ × Entry} :
  x ∈ (r.portion g i ste).body ↔ x.1 = i ∧ x.2 ∈ ste.entries ∧ x.2 ∈ r.mergeEntries g
  := by
  rw [portion, List.mem_toFinset, List.mem_map]
  constructor
  · rintro ⟨e, he, rfl⟩
    rw [List.mem_filter, decide_eq_true_eq] at he
    exact ⟨rfl, he⟩
  · rintro ⟨rfl, he⟩
    refine ⟨x.2, ?_, rfl⟩
    rw [List.mem_filter, decide_eq_true_eq]
    apply he

/-- The blocks of the sources. -/
noncomputable def blockPortions (g : Geometry) (rset : List (Run δ)) :
    List (Portion (ℕ × Entry)) :=
  rset.zipIdx.flatMap fun x => x.1.stBody.stes.map (x.1.portion g x.2)

theorem mem_blockPortions {b : Portion (ℕ × Entry)} :
  b ∈ blockPortions g rset ↔ ∃ i, ∃ r : Run δ, ∃ ste, rset[i]? = some r ∧ ste ∈ r.stBody.stes ∧
    r.portion g i ste = b
  := by
  rw [blockPortions, List.mem_flatMap]
  constructor
  · rintro ⟨⟨r, i⟩, hx, hb⟩
    obtain ⟨ste, hste, rfl⟩ := List.mem_map.mp hb
    exact ⟨i, r, ste, List.mem_zipIdx_iff_getElem?.mp hx, hste, rfl⟩
  · rintro ⟨i, r, ste, hr, hste, rfl⟩
    exact ⟨(r, i), List.mem_zipIdx_iff_getElem?.mpr hr, List.mem_map_of_mem hste⟩

theorem MergeInputs.portion_size {r : Run δ} {i : ℕ} {ste : Ste} (h : MergeInputs g rset)
    (hr : r ∈ rset) (hste : ste ∈ r.stBody.stes) :
  (r.portion g i ste).size = g.maxSectorInBlock
  := by
  apply max_eq_left
  rw [Ste.entries, List.length_map]
  apply (h.block hr hste).length_le

/-- The blocks of the sources have together the size of so many blocks. -/
theorem MergeInputs.sum_size (h : MergeInputs g rset) :
  ((blockPortions g rset).map (·.size)).sum
    = g.maxSectorInBlock * (rset.map (·.stBody.nowSteNum)).sum
  := by
  have hsize : ∀ n ∈ (blockPortions g rset).map (·.size), n = g.maxSectorInBlock := by
    intro n hn
    obtain ⟨b, hb, rfl⟩ := List.mem_map.mp hn
    obtain ⟨i, r, ste, hr, hste, rfl⟩ := mem_blockPortions.mp hb
    apply h.portion_size (List.mem_of_getElem? hr) hste
  rw [List.sum_eq_card_nsmul _ _ hsize, List.length_map, Nat.nsmul_eq_mul, Nat.mul_comm,
    blockPortions, List.length_flatMap]
  congr 2
  have hzip := List.zipIdx_map_fst 0 rset
  conv_rhs => rw [← hzip, List.map_map]
  apply List.map_congr_left
  intro x _
  apply List.length_map

theorem mem_remaining_beginning {target : Run δ} {x : ℕ × Entry} :
  x ∈ (Merging.beginning g rset target sc dev).remaining ↔
    ∃ r, rset[x.1]? = some r ∧ x.2 ∈ r.mergeEntries g
  := by
  change (∃ y, (rset.map fun r => (r.info, r.mergeEntries g))[x.1]? = some y ∧ x.2 ∈ y.2) ↔ _
  rw [List.getElem?_map]
  cases rset[x.1]? with
  | none => simp
  | some r => simp

/-- A block that may be moved is one of its source, apart from all others. -/
theorem Movable.block {i j : ℕ} {ste : Ste} (h : Movable (blocksOf rset) i j ste.core) :
  ∃ r s, rset[i]? = some r ∧ r.stBody.stes[j]? = some s ∧ s.entries = ste.entries ∧
    ∀ k r' k' s', rset[k]? = some r' → r'.stBody.stes[k']? = some s' → k ≠ i ∨ k' ≠ j →
      s'.Apart ste
  := by
  obtain ⟨⟨r, s, hr, hs, hcore⟩, r₁, s₁, hr₁, hs₁, -, -, happart⟩ := h.mayMove
  cases hr.symm.trans hr₁
  cases hs.symm.trans hs₁
  refine ⟨r, s, hr, hs, ?_, ?_⟩
  · change s.core.entries = ste.core.entries
    rw [hcore]
  · intro k r' k' s' hk hk' hne
    change s'.Apart ste.core
    rw [← hcore]
    apply happart k r' k' s' hk hk' hne

/-- The blocks of the sources divide the entries, and those that may be moved are apart. -/
theorem MergeInputs.divided {target : Run δ} (h : MergeInputs g rset) :
  Merging.Divided g (mayMoves force (blocksOf rset))
    (Merging.beginning g rset target sc dev).remaining (blockPortions g rset)
  where
    cover x hx := by
      obtain ⟨r, hr, he⟩ := mem_remaining_beginning.mp hx
      obtain ⟨ste, hste, hin⟩ := h.exists_block (List.mem_of_getElem? hr) he
      use r.portion g x.1 ste, mem_blockPortions.mpr ⟨x.1, r, ste, hr, hste, rfl⟩
      apply Run.mem_portion.mpr ⟨rfl, hin, he⟩
    sub b hb x hx := by
      obtain ⟨i, r, ste, hr, hste, rfl⟩ := mem_blockPortions.mp hb
      obtain ⟨rfl, -, he⟩ := Run.mem_portion.mp hx
      apply mem_remaining_beginning.mpr ⟨r, hr, he⟩
    dvd i ste _ b hb := by
      obtain ⟨i, r, ste, hr, hste, rfl⟩ := mem_blockPortions.mp hb
      rw [h.portion_size (List.mem_of_getElem? hr) hste]
    whole i ste hmoves := by
      obtain ⟨-, j, hmov⟩ := hmoves
      obtain ⟨r, s, hr, hs, hentries, -⟩ := hmov.block
      have hste := List.mem_of_getElem? hs
      refine ⟨r.portion g i s, mem_blockPortions.mpr ⟨i, r, s, hr, hste, rfl⟩,
        h.portion_size (List.mem_of_getElem? hr) hste, ?_⟩
      intro x
      rw [Run.mem_portion, hentries]
      constructor
      · rintro ⟨rfl, hin, he⟩
        use rfl, hin
        apply mem_remaining_beginning.mpr ⟨r, hr, he⟩
      · rintro ⟨rfl, hin, hall⟩
        obtain ⟨r', hr', he⟩ := mem_remaining_beginning.mp hall
        cases hr.symm.trans hr'
        exact ⟨rfl, hin, he⟩
    apart i ste hmoves b hb := by
      obtain ⟨-, j, hmov⟩ := hmoves
      obtain ⟨r, s, hr, hs, hentries, happart⟩ := hmov.block
      obtain ⟨k, r', s', hr', hs', rfl⟩ := mem_blockPortions.mp hb
      obtain ⟨k', hk'⟩ := List.mem_iff_getElem?.mp hs'
      by_cases hself : k = i ∧ k' = j
      · left
        obtain ⟨rfl, rfl⟩ := hself
        cases hr.symm.trans hr'
        cases hs.symm.trans hk'
        intro x hx
        obtain ⟨rfl, hin, -⟩ := Run.mem_portion.mp hx
        use rfl, hentries ▸ hin
      · right
        have hblock := h.block (List.mem_of_getElem? hr') hs'
        have hcov : ∀ x ∈ (r'.portion g k s').body, s'.Covers x.2.lba := by
          intro x hx
          apply hblock.covers_entry (Run.mem_portion.mp hx).2.1
        rcases happart k r' k' s' hr' hk' (not_and_or.mp hself) with hlt | hlt
        · left
          intro x hx
          apply Nat.lt_of_le_of_lt (hcov x hx).2 hlt
        · right
          intro x hx
          apply Nat.lt_of_lt_of_le hlt (hcov x hx).1

/-- A merge begins with the budget of the portions that its entries are divided into. -/
theorem budget_beginning {all : Set (ℕ × Entry)} {ps : List (Portion (ℕ × Entry))} {m : ℕ}
    (hord : (Merging.beginning g rset (Run.factory g mapType n .runNormal idx) sc dev).Ordered g)
    (hall : all = (Merging.beginning g rset
      (Run.factory g mapType n .runNormal idx) sc dev).remaining)
    (hsub : ∀ b ∈ ps, (b.body : Set (ℕ × Entry)) ⊆ all)
    (hsum : (ps.map (·.size)).sum ≤ g.maxSectorInBlock * m)
    (hm : m ≤ (StArray.init g n mapType).maxSteNum) :
  (Merging.beginning g rset (Run.factory g mapType n .runNormal idx) sc dev).Budget g all ps m
  where
    ordered := hord
    sub := hall ▸ Set.Subset.refl _
    gone x hx hnot := absurd (hall ▸ hx) hnot
    room := by
      have hfilled : (Run.factory g mapType n .runNormal idx : Run δ).filled g = 0 := by
        rw [Run.filled]
        rfl
      rw [← hall, Portion.total_whole hsub]
      change (Run.factory g mapType n .runNormal idx : Run δ).filled g + 0 + _ ≤ _
      rw [hfilled]
      omega
    le := hm

end

/-! ### The rounds -/

namespace MergeState

variable {st st' : MergeState δ} {m : Merging δ} {blocks : List (RunType × List Ste)}
  {all : Set (ℕ × Entry)} {ps : List (Portion (ℕ × Entry))} {n : ℕ}

/-- The entries that have been taken are written to a target that has room for them. -/
theorem flushSorted_room (h : Sim g blocks st m) (hb : m.Budget g all ps n) :
  Meets Abort.NotFull (fun st' => st'.mms = st.mms ∧ st.sc.KeepsOwned st'.sc) (st.flushSorted g)
  := by
  apply flushSorted_meets notFull_of
  · intro xs _
    apply invalidateAll_meets notFull_of
    apply Abort.noConfusion
  · intro xs dev hxs
    rw [foldlM_insertSorted, (map_readFrom (readAll_ok h.sorted hxs)).2, ← h.dev, ← h.res]
    have hmem : ∀ x ∈ m.sorted.map fun y => (y.2.lba, m.dev.data y.2.psa),
        ∃ y ∈ m.sorted, x.1 = y.2.lba := by
      intro x hx
      obtain ⟨y, hy, rfl⟩ := List.mem_map.mp hx
      exact ⟨y, hy, rfl⟩
    refine (hb.ordered.laid.insertAll_room (n := n) _ hb.ordered.room ?_ ?_ ?_ ?_ hb.le).mono ?_
    · intro x hx
      obtain ⟨y, hy, heq⟩ := hmem x hx
      rw [heq]
      apply hb.ordered.taken_le y hy
    · rw [List.map_map]
      apply hb.ordered.taken_asc
    · intro x hx
      obtain ⟨y, hy, heq⟩ := hmem x hx
      rw [heq]
      apply hb.ordered.taken y hy
    · rw [List.length_map]
      have := hb.room
      omega
    · rintro x ⟨-, hx⟩
      apply hx

theorem round_room {targetRound : ℕ} {force : Bool} (h : Sim g blocks st m)
    (hb : m.Budget g all ps n) (hdiv : Merging.Divided g (mayMoves force blocks) all ps) :
  Meets Abort.NotFull (fun _ => True) (st.round g targetRound force)
  := by
  have hE : ∀ e : Abort, e ≠ .divByZero → e.ofWrite = false → e.NotFull := by
    rintro e - h rfl
    cases h
  have hsafe : ∀ mms : List (Mm δ), AllSafe Abort.NotFull mms :=
    fun _ _ _ => .inl (.inl Abort.noConfusion)
  unfold round
  apply ((sortingMmSet_meets hE _ (hsafe _)).with_ok fun _ =>
    sortingMmSet_ok (mayMoves force blocks) _ h).bind
  rintro ⟨target, st₁⟩ ⟨-, m₁, hsteps₁, hsim₁, hat⟩
  dsimp only at hsim₁ hat ⊢
  have hb₁ := hb.steps hdiv hsteps₁
  apply ((flushSorted_room hsim₁ hb₁).with_ok fun _ =>
    flushSorted_ok (mayMoves force blocks) hsim₁).bind
  rintro st₂ ⟨⟨hmms, -⟩, m₂, hsteps₂, hsim₂, -⟩
  have hb₂ := hb₁.steps hdiv hsteps₂
  cases target with
  | none => trivial
  | some ridx =>
      obtain ⟨j, mm, p, ste, hat⟩ := hat ridx rfl
      have hget : st₂.mms[ridx]? = some mm := hmms ▸ hat.picks.get
      obtain ⟨e, l, hl, -⟩ :=
        left_cons_of_pick (hsim₂.mms mm (List.mem_of_getElem? hget)).reads hat.picks.pick
      have hleft : (ridx, e) ∈ m₂.remaining := by
        refine ⟨(mm.r.info, mm.left g), ?_, ?_⟩
        · rw [hsim₂.srcs, List.getElem?_map, hget]
          rfl
        · rw [hl]
          apply List.mem_cons_self
      have hroom := hb₂.not_tableFull hdiv hleft
      rw [hsim₂.res] at hroom
      apply (trivialMove_meets hE (hsafe _) (fun _ _ _ _ => .inl Abort.noConfusion)
        (Run.paddingCurrentBlock_room hroom)).mono
      intro _ _
      trivial

theorem rounds_room {step : ℕ} {force : Bool}
    (hnodup : ∀ i j ste, Movable blocks i j ste → ste.lbas.Nodup)
    (hdiv : Merging.Divided g (mayMoves force blocks) all ps) (fuel : ℕ) :
  ∀ {targetRound : ℕ} {st : MergeState δ} {m : Merging δ}, Sim g blocks st m →
    m.Budget g all ps n →
    Meets Abort.NotFull (fun _ => True) (rounds g step force fuel targetRound st)
  := by
  induction fuel with
  | zero =>
      intro targetRound st m _ _
      apply Abort.noConfusion
  | succ fuel ih =>
      intro targetRound st m h hb
      unfold rounds
      apply ((round_room h hb hdiv).with_ok fun _ => round_steps h hnodup).bind
      rintro st₁ ⟨-, m₁, hsteps, hsim₁, -⟩
      split
      · trivial
      · apply ih hsim₁ (hb.steps hdiv hsteps)

end MergeState

/-- A merge that begins with a budget does not fill the table of the target. -/
theorem runMerge_room {rset : List (Run δ)} {mapType : MapType} {k idx n : ℕ} {force : Bool}
    {sc : ShortcutMaster} {dev : Dev δ} {all : Set (ℕ × Entry)}
    {ps : List (Portion (ℕ × Entry))} (hin : MergeInputs g rset) (hnone : NoneTwice rset)
    (honce : MovesOnce rset) (hdiv : Merging.Divided g (mayMoves force (blocksOf rset)) all ps)
    (hb : (Merging.beginning g rset (Run.factory g mapType k .runNormal idx) sc dev).Ordered g →
      (Merging.beginning g rset
        (Run.factory g mapType k .runNormal idx) sc dev).Budget g all ps n) :
  Meets Abort.NotFull (fun st => st.res.stBody.nowSteNum ≤ st.res.stBody.maxSteNum)
    (runMerge g rset (Run.factory g mapType k .runNormal idx) force sc dev)
  := by
  unfold runMerge
  apply ((MergeState.start_meets_of (show Abort.NotFull .divByNoSte from
    Abort.noConfusion)).with_ok fun _ h => h).bind
  rintro st₀ ⟨-, hok₀⟩
  obtain ⟨hsim, hord⟩ := MergeState.start_ordered hin hnone hok₀
  rw [start_eq hin hok₀] at hsim hord
  have hb₀ := hb hord
  apply ((MergeState.rounds_room (fun _ _ _ => honce.movable) hdiv _ hsim hb₀).with_ok
    fun _ => MergeState.rounds_steps (fun _ _ _ => honce.movable) _ hsim).bind
  rintro st₁ ⟨-, m, hsteps, hsim₁, -⟩
  have hb₁ := hb₀.steps hdiv hsteps
  have hroom : st₁.res.filled g ≤ g.maxSectorInBlock * n := by
    have := hb₁.room
    rw [← hsim₁.res]
    omega
  have hle := hb₁.le
  have hlaid := hb₁.ordered.laid
  rw [hsim₁.res] at hle hlaid
  apply ((Run.insertDone_room fun hbuf =>
    Run.not_tableFull_of_tail (fun htail => hbuf ?_) hroom hle).with_ok fun _ h => h).bind
  · rintro ⟨res, dev'⟩ ⟨hkind, hdone⟩
    obtain ⟨-, -, hnum⟩ := hlaid.insertDone hdone
    change res.stBody.nowSteNum ≤ res.stBody.maxSteNum
    rw [hnum, hkind.maxSteNum]
    apply Nat.le_trans (Run.closedNum_le (w := 0) hroom) hle
  · apply List.map_eq_nil_iff.mp (List.append_eq_nil_iff.mp htail).2

end AppL
