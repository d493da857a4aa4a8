import Mathlib.Data.Set.Finite.Basic
import AppL.Lsm.Log
import AppL.Lsm.Ownership

/-!
# Reading from the memtable

A query of the memtable looks into the page buffer first, then into the tree, and checks the
lba in the out-of-band area of the piece it finds there.
-/

namespace AppL

open Transition

namespace Run

variable {δ : Type} (g : Geometry)

/-- `run_query` of a log with `__check_data`: the sector in the buffer, or the one at the place
that the tree gives when its out-of-band entry is the lba.  `__check_data` only decides whether the
request ends or is tried again; the sector stays where it is in the page that the device has read,
and the result is that sector. -/
def queryLog (r : Run δ) (dev : Dev δ) (lba : ℕ) : Option δ :=
  match r.pp.bind fun pp => pp.findValue lba with
  | some d => some d
  | none =>
      match r.runLogMf.lookup lba with
      | none => none
      | some globalOffset =>
          let psa := r.stBody.convertGlobalOffsetToPsa g globalOffset
          if dev.bm.oob psa = lba then some (dev.data psa) else none

end Run

/-- The data of the first sector of an lba. -/
def firstData {δ : Type} (items : List (ℕ × δ)) (lba : ℕ) : Option δ :=
  (items.find? fun x => x.1 == lba).map (·.2)

/-- The data of the last sector of an lba. -/
def lastData {δ : Type} (items : List (ℕ × δ)) (lba : ℕ) : Option δ :=
  firstData items.reverse lba

/-- The sectors that are still in the page buffer after `items` have been inserted. -/
def stillBuffered {δ : Type} (items : List (ℕ × δ)) : List (ℕ × δ) :=
  items.drop (items.length / l2pgap * l2pgap)

/-! ### First and last sectors -/

section Sectors

variable {δ : Type} {items items' : List (ℕ × δ)} {lba : ℕ}

theorem lastData_append :
  lastData (items ++ items') lba = (lastData items' lba).or (lastData items lba)
  := by
  simp only [lastData, firstData, List.reverse_append, List.find?_append]
  cases items'.reverse.find? fun x => x.1 == lba with
  | none => rfl
  | some x => rfl

theorem firstData_eq_none :
  firstData items lba = none ↔ ∀ x ∈ items, x.1 ≠ lba
  := by simp [firstData]

theorem lastData_eq_none :
  lastData items lba = none ↔ ∀ x ∈ items, x.1 ≠ lba
  := by simp [lastData, firstData]

/-- The data at the last place of an lba. -/
theorem lastData_of_isLast {k : ℕ} {d : δ} (h : IsLast (items.map (·.1)) lba k)
    (hk : items[k]? = some (lba, d)) :
  lastData items lba = some d
  := by
  have hsplit : items = items.take (k + 1) ++ items.drop (k + 1) :=
    (List.take_append_drop _ _).symm
  have hnone : lastData (items.drop (k + 1)) lba = none := by
    rw [lastData_eq_none]
    intro x hx heq
    obtain ⟨i, hi⟩ := List.mem_iff_getElem?.mp hx
    rw [List.getElem?_drop] at hi
    apply h.2 (k + 1 + i) (by omega)
    rw [List.getElem?_map, hi, ← heq]
    rfl
  have htake : items.take (k + 1) = items.take k ++ [(lba, d)] := by
    rw [List.take_add_one, hk]
    rfl
  rw [hsplit, lastData_append, hnone, htake, lastData_append]
  simp [lastData, firstData]

/-- The sectors that fill whole pages are not in the buffer. -/
theorem stillBuffered_append (h : items.length % l2pgap = 0) (h' : items'.length < l2pgap) :
  stillBuffered (items ++ items') = items'
  := by
  have hlen : (items ++ items').length / l2pgap * l2pgap = items.length := by
    have hl : l2pgap = 4 := rfl
    rw [hl] at h h' ⊢
    rw [List.length_append]
    omega
  rw [stillBuffered, hlen, List.drop_left]

end Sectors

namespace Run

variable {δ : Type} {g : Geometry} {r r' : Run δ} {dev dev' : Dev δ} {held : List ℕ}

/-! ### Inserting into an empty log -/

/-- A new log has nothing on flash. -/
theorem factory_logOpen (mapType : MapType) (entryNum idx : ℕ) (hh : dev.Holds held) :
  (factory g mapType entryNum .runLog idx).LogOpen g held dev ([] : List (ℕ × δ))
  := by
  have hpos := g.maxSectorInBlock_pos
  refine ⟨⟨rfl, ⟨rfl, Nat.zero_le _, ?_, rfl, Ste.meta_empty g, rfl, rfl⟩, ?_, rfl,
    List.Pairwise.nil, ?_⟩, ⟨rfl, hh, ?_⟩, hpos, rfl, rfl, Nat.succ_pos 3, ?_⟩
  · simp only [factory, StArray.init, Ste.empty, List.length_nil, Bool.false_eq_true,
      false_iff]
    omega
  · intro ste hste
    cases hste
  · intro x
    constructor
    · intro hx
      cases hx
    · intro hx
      cases hx.1
  · intro x hx
    cases hx
  · intro x hx
    cases hx

/-- After a sequence of inserts into the newest log, the log shows what was inserted. -/
theorem insertAll_log (xs : List (ℕ × δ)) (hxs : ∀ x ∈ xs, x.1 ≤ uint32Max) :
  ∀ {r : Run δ} {sc sc' : ShortcutMaster} {dev : Dev δ} {items : List (ℕ × δ)},
    r.LogOpen g held dev items → sc.Newest r.info → r.Tagged g dev →
    insertAll g xs r sc dev = .ok (r', sc', dev') →
    ∃ items', r'.LogOpen g held dev' items' ∧ r'.Tagged g dev' ∧
      items' ++ r'.buffered = items ++ r.buffered ++ xs
  := by
  induction xs with
  | nil =>
      intro r sc sc' dev items hr _ htag h
      cases h
      use items, hr, htag, (List.append_nil _).symm
  | cons x xs ih =>
      intro r sc sc' dev items hr hnew htag h
      simp only [insertAll, bind_eq_ok] at h
      obtain ⟨⟨r₁, sc₁, dev₁⟩, hins, hrest⟩ := h
      obtain ⟨htrue, hnew'⟩ := hnew.validityCheckAndLink x.1
      simp only [insert, hr.log.type, htrue, if_true, bind_eq_ok] at hins
      obtain ⟨_, -, ⟨r₂, dev₂⟩, hsector, hret⟩ := hins
      cases hret
      obtain ⟨items₁, hr₁, heq, hshape, -, -, htag₁, -⟩ :=
        insertSector_log hr (hxs x (by simp)) hsector
      rw [← hshape.info] at hnew'
      obtain ⟨items', hr', htag', heq'⟩ :=
        ih (fun y hy => hxs y (by simp [hy])) hr₁ (hshape.info ▸ hnew') (htag₁ htag) hrest
      use items', hr', htag'
      rw [heq', heq, List.append_assoc, List.singleton_append]

/-- What a query of a log finds: the first buffered sector of the lba, or else the last one
on flash. -/
theorem queryLog_eq {items : List (ℕ × δ)} {lba : ℕ} (hr : r.LogOpen g held dev items)
    (htag : r.Tagged g dev) :
  r.queryLog g dev lba = (firstData r.buffered lba).or (lastData items lba)
  := by
  have hfind : (r.pp.bind fun pp => pp.findValue lba) = firstData r.buffered lba := by
    unfold buffered
    cases r.pp with
    | none => rfl
    | some pp => rfl
  rw [queryLog, hfind]
  cases firstData r.buffered lba with
  | some d => rfl
  | none =>
      rw [Option.none_or]
      cases hl : r.runLogMf.lookup lba with
      | some k =>
          have hmem := (TreeMap.lookup_eq_some hr.log.asc).mp hl
          have hlast := (hr.log.last _).mp hmem
          rw [← hr.logs.lbas] at hlast
          simp only [htag _ hmem, if_true]
          apply (lastData_of_isLast hlast (hr.logs.data _ hmem)).symm
      | none =>
          symm
          rw [lastData_eq_none]
          intro x hx heq
          have hmem : lba ∈ r.pairs.map (·.lba) := by
            rw [← hr.logs.lbas, ← heq]
            apply List.mem_map_of_mem hx
          obtain ⟨k, hk⟩ := exists_isLast hmem
          have hin := (TreeMap.lookup_eq_some hr.log.asc).mpr ((hr.log.last (lba, k)).mpr hk)
          rw [hl] at hin
          cases hin

/-- After any sequence of inserts into a new log, a query of an lba finds the data of its last
insert exactly when the first sector of this lba among those that are still buffered, if there
is one, has this data.  Only finitely many pieces of the device are valid, and no other run
that owns an lba is newer than the log. -/
theorem queryLog_eq_lastData {mapType : MapType} {entryNum idx : ℕ}
    {sc sc' : ShortcutMaster} {xs : List (ℕ × δ)} {lba : ℕ}
    (hfin : {q | dev.bit q = true}.Finite) (hnew : sc.Newest idx)
    (hxs : ∀ x ∈ xs, x.1 ≤ uint32Max)
    (h : insertAll g xs (factory g mapType entryNum .runLog idx) sc dev = .ok (r', sc', dev')) :
  r'.queryLog g dev' lba = lastData xs lba ↔
    ∀ d, firstData (stillBuffered xs) lba = some d → lastData xs lba = some d
  := by
  have hh : dev.Holds hfin.toFinset.toList := by
    use Finset.nodup_toList _
    intro q
    rw [Finset.mem_toList, Set.Finite.mem_toFinset]
    rfl
  have hopen := factory_logOpen (g := g) mapType entryNum idx hh
  obtain ⟨items, hr, htag, heq⟩ := insertAll_log xs hxs hopen hnew (by intro x hx; cases hx) h
  rw [queryLog_eq hr htag]
  change items ++ r'.buffered = xs at heq
  rw [← heq, stillBuffered_append hr.pages hr.short, lastData_append]
  cases hf : firstData r'.buffered lba with
  | none =>
      have hlast : lastData r'.buffered lba = none := by
        rw [lastData_eq_none]
        apply firstData_eq_none.mp hf
      simp [hlast]
  | some d =>
      rw [Option.some_or]
      constructor
      · intro heq d' hd'
        cases hd'
        apply heq.symm
      · intro hd
        apply (hd d rfl).symm

/-- A new log as the memtable of an empty tree, and the empty device. -/
def firstLog : Run ℕ := factory Geometry.default .guardBf 16 .runLog 0

/-- The lba of the first buffered sector is inserted once more, and the query still finds the
older one. -/
theorem queryLog_first :
  ¬ ∀ (xs : List (ℕ × ℕ)) (r : Run ℕ) (sc : ShortcutMaster) (dev : Dev ℕ) (lba : ℕ),
    insertAll Geometry.default xs firstLog (ShortcutMaster.init 1)
      (Dev.init Geometry.default 0) = .ok (r, sc, dev) →
    (∃ x ∈ xs, x.1 = lba) → r.queryLog Geometry.default dev lba = lastData xs lba
  := by
  intro h
  have hq := h [(5, 10), (5, 11)] _ _ _ 5 rfl ⟨(5, 10), by decide, rfl⟩
  revert hq
  decide

/-- An lba that was inserted once, with the other sectors of its page. -/
theorem queryLog_eq_lastData_page :
  ∃ r sc dev, insertAll Geometry.default [(5, 10), (6, 11), (5, 12), (7, 13), (6, 14)] firstLog
      (ShortcutMaster.init 1) (Dev.init Geometry.default 0) = .ok (r, sc, dev) ∧
    r.queryLog Geometry.default dev 6
      = lastData [(5, 10), (6, 11), (5, 12), (7, 13), (6, 14)] 6
  := by
  obtain ⟨⟨r, sc, dev⟩, h⟩ : ∃ x, insertAll Geometry.default
      [(5, 10), (6, 11), (5, 12), (7, 13), (6, 14)]
      (factory Geometry.default .guardBf 16 .runLog 0) (ShortcutMaster.init 1)
      (Dev.init Geometry.default 0) = .ok x := ⟨_, rfl⟩
  refine ⟨r, sc, dev, h, (queryLog_eq_lastData ?_ ?_ (by decide) h).mpr (by decide)⟩
  · have hempty : {q | (Dev.init Geometry.default 0).bit q = true} = ∅ := by
      ext q
      simp [Dev.init, BlockManager.create]
    rw [hempty]
    apply Set.finite_empty
  · intro lba owner howner
    cases howner

end Run

end AppL
