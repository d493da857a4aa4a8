import AppL.Lsm.Target

/-!
# The memtable

The tree of a log maps every lba to the place of its last entry.  A write to the log enters
the new pieces into the tree and invalidates the pieces they replace, so that the valid
pieces of the log are those of its tree.
-/

namespace AppL

open Transition

/-! ### The tree -/

namespace TreeMap

variable {t : TreeMap} {lba offset : ℕ}

/-- The lbas of the tree are in order. -/
def Asc (t : TreeMap) : Prop := t.Pairwise fun x y => x.1 < y.1

theorem Asc.cons_inv {x : ℕ × ℕ} (h : Asc (x :: t)) :
  (∀ y ∈ t, x.1 < y.1) ∧ t.Asc
  := List.pairwise_cons.mp h

theorem mem_insert (h : t.Asc) (x : ℕ × ℕ) :
  x ∈ (t.insert lba offset).2 ↔ x = (lba, offset) ∨ x.1 ≠ lba ∧ x ∈ t
  := by
  induction t with
  | nil => simp [insert]
  | cons y t ih =>
      obtain ⟨hlt, ht⟩ := h.cons_inv
      obtain ⟨k, v⟩ := y
      rw [insert]
      split
      · rename_i hk
        have hne : ∀ y ∈ (k, v) :: t, y.1 ≠ lba := by
          intro y hy
          rcases List.mem_cons.mp hy with rfl | hy
          · apply (Nat.ne_of_lt hk).symm
          · have := hlt y hy
            dsimp only at this
            omega
        rw [List.mem_cons]
        constructor
        · rintro (rfl | hx)
          · left
            rfl
          · right
            use hne x hx, hx
        · rintro (rfl | ⟨-, hx⟩)
          · left
            rfl
          · right
            apply hx
      · rename_i hk
        split
        · rename_i heq
          subst heq
          rw [List.mem_cons, List.mem_cons]
          constructor
          · rintro (rfl | hx)
            · left
              rfl
            · right
              use (Nat.ne_of_lt (hlt x hx)).symm, .inr hx
          · rintro (rfl | ⟨hne, rfl | hx⟩)
            · left
              rfl
            · exact absurd rfl hne
            · right
              apply hx
        · rename_i hne
          rw [List.mem_cons, List.mem_cons, ih ht]
          constructor
          · rintro (rfl | rfl | ⟨hx, hmem⟩)
            · right
              use Ne.symm hne, .inl rfl
            · left
              rfl
            · right
              use hx, .inr hmem
          · rintro (rfl | ⟨hx, rfl | hmem⟩)
            · right
              left
              rfl
            · left
              rfl
            · right
              right
              use hx, hmem

theorem Asc.insert (h : t.Asc) :
  Asc (t.insert lba offset).2
  := by
  induction t with
  | nil => simp [TreeMap.insert, Asc]
  | cons y t ih =>
      obtain ⟨hlt, ht⟩ := h.cons_inv
      obtain ⟨k, v⟩ := y
      rw [TreeMap.insert]
      split
      · rename_i hk
        apply List.pairwise_cons.mpr
        refine ⟨?_, h⟩
        intro y hy
        rcases List.mem_cons.mp hy with rfl | hy
        · apply hk
        · apply Nat.lt_trans hk (hlt y hy)
      · split
        · exact List.pairwise_cons.mpr ⟨hlt, ht⟩
        · apply List.pairwise_cons.mpr
          refine ⟨?_, ih ht⟩
          intro y hy
          rw [mem_insert ht] at hy
          rcases hy with rfl | ⟨-, hy⟩
          · dsimp only
            omega
          · apply hlt y hy

theorem lookup_eq_none (h : ∀ x ∈ t, x.1 ≠ lba) :
  t.lookup lba = none
  := by
  induction t with
  | nil => rfl
  | cons y t ih =>
      rw [lookup, if_neg (h y (by simp))]
      apply ih
      intro x hx
      apply h x (by simp [hx])

theorem insert_fst (h : t.Asc) :
  (t.insert lba offset).1 = t.lookup lba
  := by
  induction t with
  | nil => rfl
  | cons y t ih =>
      obtain ⟨hlt, ht⟩ := h.cons_inv
      obtain ⟨k, v⟩ := y
      rw [TreeMap.insert, lookup]
      split
      · rename_i hk
        rw [if_neg (Nat.ne_of_lt hk).symm, lookup_eq_none]
        intro y hy
        apply (Nat.ne_of_lt (Nat.lt_trans hk (hlt y hy))).symm
      · split
        · rename_i heq
          rw [if_pos heq.symm]
        · rename_i hne
          rw [if_neg (Ne.symm hne)]
          apply ih ht

theorem lookup_eq_some (h : t.Asc) :
  t.lookup lba = some offset ↔ (lba, offset) ∈ t
  := by
  induction t with
  | nil => simp [lookup]
  | cons y t ih =>
      obtain ⟨hlt, ht⟩ := h.cons_inv
      obtain ⟨k, v⟩ := y
      rw [lookup, List.mem_cons]
      split
      · rename_i heq
        subst heq
        constructor
        · intro hv
          cases hv
          left
          rfl
        · rintro (hv | hmem)
          · cases hv
            rfl
          · exact absurd (hlt _ hmem) (Nat.lt_irrefl _)
      · rename_i hne
        rw [ih ht]
        constructor
        · intro hmem
          right
          apply hmem
        · rintro (hv | hmem)
          · cases hv
            exact absurd rfl hne
          · apply hmem

theorem Asc.nodup (h : t.Asc) :
  t.Nodup
  := by
  apply List.Pairwise.imp _ h
  rintro x y hlt rfl
  apply Nat.lt_irrefl _ hlt

/-- A new lba is added to the tree, an lba that is there is replaced. -/
theorem insert_perm (h : t.Asc) (lba offset : ℕ) :
  (t.lookup lba = none ∧ (t.insert lba offset).2.Perm ((lba, offset) :: t)) ∨
  ∃ old t', t.lookup lba = some old ∧ t.Perm ((lba, old) :: t') ∧
    (t.insert lba offset).2.Perm ((lba, offset) :: t')
  := by
  have hnd : (t.insert lba offset).2.Nodup := h.insert.nodup
  cases hl : t.lookup lba with
  | none =>
      refine .inl ⟨rfl, ?_⟩
      have hnot : ∀ v, (lba, v) ∉ t := by
        intro v hv
        rw [← lookup_eq_some h, hl] at hv
        cases hv
      rw [List.perm_ext_iff_of_nodup hnd (List.nodup_cons.mpr ⟨hnot _, h.nodup⟩)]
      intro x
      rw [mem_insert h, List.mem_cons]
      constructor
      · rintro (rfl | ⟨-, hx⟩)
        · left
          rfl
        · right
          apply hx
      · rintro (rfl | hx)
        · left
          rfl
        · refine .inr ⟨?_, hx⟩
          rintro rfl
          apply hnot x.2 hx
  | some old =>
      have hmem : (lba, old) ∈ t := (lookup_eq_some h).mp hl
      refine .inr ⟨old, t.erase (lba, old), rfl, List.perm_cons_erase hmem, ?_⟩
      have hme : ∀ x, x ∈ t.erase (lba, old) ↔ x.1 ≠ lba ∧ x ∈ t := by
        intro x
        rw [h.nodup.mem_erase_iff]
        constructor
        · rintro ⟨hne, hx⟩
          refine ⟨?_, hx⟩
          rintro rfl
          have := (lookup_eq_some h).mpr hx
          rw [hl] at this
          cases this
          apply hne rfl
        · rintro ⟨hne, hx⟩
          refine ⟨?_, hx⟩
          rintro rfl
          apply hne rfl
      rw [List.perm_ext_iff_of_nodup hnd
        (List.nodup_cons.mpr ⟨by simp [hme], h.nodup.erase _⟩)]
      intro x
      rw [mem_insert h, List.mem_cons, hme]

end TreeMap

/-! ### The log -/

/-- `k` is the last place of `lba` in the list. -/
def IsLast (lbas : List ℕ) (lba k : ℕ) : Prop :=
  lbas[k]? = some lba ∧ ∀ k', k < k' → lbas[k']? ≠ some lba

theorem isLast_concat {lbas : List ℕ} {a lba k : ℕ} :
  IsLast (lbas ++ [a]) lba k ↔ (lba = a ∧ k = lbas.length) ∨ lba ≠ a ∧ IsLast lbas lba k
  := by
  unfold IsLast
  constructor
  · rintro ⟨hk, hlast⟩
    by_cases hlba : lba = a
    · refine .inl ⟨hlba, ?_⟩
      have hle : k ≤ lbas.length := by
        have := (List.getElem?_eq_some_iff.mp hk).1
        simp only [List.length_append, List.length_singleton] at this
        omega
      apply Nat.le_antisymm hle
      by_contra hlt
      apply hlast lbas.length (by omega)
      simp [hlba]
    · refine .inr ⟨hlba, ?_, ?_⟩
      · rw [List.getElem?_append] at hk
        split at hk
        · apply hk
        · exact absurd (List.mem_singleton.mp (List.mem_of_getElem? hk)) hlba
      · intro k' hk' heq
        apply hlast k' hk'
        rw [List.getElem?_append_left (List.getElem?_eq_some_iff.mp heq).1, heq]
  · rintro (⟨rfl, rfl⟩ | ⟨hne, hk, hlast⟩)
    · use by simp
      intro k' hk'
      rw [List.getElem?_eq_none]
      · simp
      · simp only [List.length_append, List.length_singleton]
        omega
    · refine ⟨?_, ?_⟩
      · rw [List.getElem?_append_left (List.getElem?_eq_some_iff.mp hk).1, hk]
      · intro k' hk' heq
        rw [List.getElem?_append] at heq
        split at heq
        · apply hlast k' hk' heq
        · apply hne (List.mem_singleton.mp (List.mem_of_getElem? heq))

theorem IsLast.of_append {lbas : List ℕ} (lbas' : List ℕ) {lba k : ℕ}
    (h : IsLast (lbas ++ lbas') lba k) (hk : k < lbas.length) :
  IsLast lbas lba k
  := by
  constructor
  · rw [← h.1, List.getElem?_append_left hk]
  · intro k' hk' heq
    apply h.2 k' hk'
    rw [List.getElem?_append_left (List.getElem?_eq_some_iff.mp heq).1, heq]

theorem exists_isLast {lbas : List ℕ} {lba : ℕ} (h : lba ∈ lbas) :
  ∃ k, IsLast lbas lba k
  := by
  induction lbas using List.reverseRecOn with
  | nil => cases h
  | append_singleton lbas a ih =>
      by_cases heq : lba = a
      · exact ⟨lbas.length, isLast_concat.mpr (.inl ⟨heq, rfl⟩)⟩
      · have hmem : lba ∈ lbas := by simpa [heq] using h
        obtain ⟨k, hk⟩ := ih hmem
        exact ⟨k, isLast_concat.mpr (.inr ⟨heq, hk⟩)⟩

namespace Run

variable {δ : Type} {g : Geometry} {r r' : Run δ} {dev dev' : Dev δ} {held : List ℕ}

/-- The pairs on the summary pages of the run. -/
def pairs (r : Run δ) : List SummaryPair := (r.stBody.stes ++ [r.stBody.cur]).flatMap (·.page)

/-- The entries of the tree, at their pieces. -/
def treeEntries (g : Geometry) (r : Run δ) : List Entry :=
  r.runLogMf.map fun x => ⟨x.1, r.stBody.convertGlobalOffsetToPsa g x.2, none⟩

/-- A log whose blocks are all full except for the current one. -/
structure Log (g : Geometry) (r : Run δ) : Prop where
  type : r.type = .runLog
  filling : r.stBody.Filling g
  stes : ∀ ste ∈ r.stBody.stes, ste.Meta g ∧ ste.page.length = g.maxSectorInBlock ∧
    ste.copied = false ∧ ste.unlinkedDataCopy = false
  global : r.stBody.globalWritePointer = r.pairs.length
  asc : r.runLogMf.Asc
  last : ∀ x, x ∈ r.runLogMf ↔ IsLast (r.pairs.map (·.lba)) x.1 x.2

/-- Every pair is on the page and at the place that its number gives. -/
def Paged (g : Geometry) (r : Run δ) : Prop :=
  ∀ k p, r.pairs[k]? = some p →
    ∃ ste, (r.stBody.stes ++ [r.stBody.cur])[k / g.maxSectorInBlock]? = some ste ∧
      ste.page[k % g.maxSectorInBlock]? = some p

/-- The pairs of full blocks are numbered block by block. -/
theorem getElem?_full_pages {n : ℕ} (hn : 0 < n) {cur : Ste} (hcur : cur.page.length ≤ n)
    (stes : List Ste) :
  (∀ ste ∈ stes, ste.page.length = n) → ∀ {k : ℕ} {p : SummaryPair},
    ((stes ++ [cur]).flatMap (·.page))[k]? = some p →
    ∃ ste, (stes ++ [cur])[k / n]? = some ste ∧ ste.page[k % n]? = some p
  := by
  induction stes with
  | nil =>
      intro _ k p hp
      simp only [List.nil_append, List.flatMap_singleton] at hp
      have hk : k < n := by
        have := (List.getElem?_eq_some_iff.mp hp).1
        omega
      refine ⟨cur, ?_, ?_⟩
      · simp [Nat.div_eq_of_lt hk]
      · rw [Nat.mod_eq_of_lt hk, hp]
  | cons ste stes ih =>
      intro hfull k p hp
      have hlen := hfull ste (by simp)
      rw [List.cons_append, List.flatMap_cons, List.getElem?_append, hlen] at hp
      split at hp
      · rename_i hk
        refine ⟨ste, ?_, ?_⟩
        · simp [Nat.div_eq_of_lt hk]
        · rw [Nat.mod_eq_of_lt hk, hp]
      · rename_i hk
        obtain ⟨ste', hste', hpage⟩ := ih (fun x hx => hfull x (by simp [hx])) hp
        have hdiv : k / n = (k - n) / n + 1 := by
          rw [← Nat.add_div_right (k - n) hn, Nat.sub_add_cancel (Nat.le_of_not_lt hk)]
        have hmod : (k - n) % n = k % n := by
          rw [← Nat.add_mod_right (k - n) n, Nat.sub_add_cancel (Nat.le_of_not_lt hk)]
        refine ⟨ste', ?_, ?_⟩
        · rw [hdiv, List.cons_append, List.getElem?_cons_succ, hste']
        · rw [← hmod, hpage]

theorem Log.paged (hr : r.Log g) :
  r.Paged g
  := by
  intro k p hp
  apply getElem?_full_pages g.maxSectorInBlock_pos hr.filling.le _
    (fun ste hste => (hr.stes ste hste).2.1) hp

theorem steAt_eq {sa : StArray} {i : ℕ} {ste : Ste}
    (h : (sa.stes ++ [sa.cur])[i]? = some ste) :
  sa.steAt i = ste
  := by
  unfold StArray.steAt
  rw [List.getElem?_append] at h
  split at h
  · rw [h, Option.getD_some]
  · rename_i hi
    rw [List.getElem?_eq_none (Nat.le_of_not_lt hi), Option.getD_none]
    apply (List.mem_singleton.mp (List.mem_of_getElem? h)).symm

/-- The number of a pair gives its piece. -/
theorem Paged.convert {k : ℕ} {p : SummaryPair} (hr : r.Paged g)
    (hmeta : ∀ ste ∈ r.stBody.stes ++ [r.stBody.cur], ste.Meta g)
    (hp : r.pairs[k]? = some p) :
  r.stBody.convertGlobalOffsetToPsa g k = p.piecePpa
  := by
  obtain ⟨ste, hste, hpage⟩ := hr k p hp
  rw [(hmeta _ (List.mem_of_getElem? hste)).piece _ _ hpage,
    StArray.convertGlobalOffsetToPsa, steAt_eq hste]

theorem Log.meta (hr : r.Log g) :
  ∀ ste ∈ r.stBody.stes ++ [r.stBody.cur], ste.Meta g
  := by
  intro ste hste
  rcases List.mem_append.mp hste with hste | hste
  · apply (hr.stes ste hste).1
  · rw [List.mem_singleton.mp hste]
    apply hr.filling.cur

theorem Log.convert {k : ℕ} {p : SummaryPair} (hr : r.Log g) (hp : r.pairs[k]? = some p) :
  r.stBody.convertGlobalOffsetToPsa g k = p.piecePpa
  := hr.paged.convert hr.meta hp

/-- A place of the tree has a pair with the lba. -/
theorem Log.pair_of_mem {x : ℕ × ℕ} (hr : r.Log g) (hx : x ∈ r.runLogMf) :
  ∃ p, r.pairs[x.2]? = some p ∧ p.lba = x.1
  := by
  have hk := ((hr.last x).mp hx).1
  rw [List.getElem?_map] at hk
  obtain ⟨p, hp, hlba⟩ := Option.map_eq_some_iff.mp hk
  use p, hp, hlba

theorem Appends.pairs_eq {pba : ℕ} {ps : List SummaryPair} (h : r.Appends r' pba ps) :
  r'.pairs = r.pairs ++ ps
  := by
  simp only [pairs, h.stes, h.page, List.flatMap_append, List.flatMap_singleton,
    List.append_assoc]

/-- The piece of a pair does not depend on the block of an empty current entry. -/
theorem Log.convert_setPba {k pba : ℕ} {p : SummaryPair} (hr : r.Log g)
    (hpba : r.stBody.cur.page ≠ [] → pba = r.stBody.cur.pba) (hp : r.pairs[k]? = some p) :
  (r.setPba pba).stBody.convertGlobalOffsetToPsa g k = p.piecePpa
  := by
  by_cases hnil : r.stBody.cur.page = []
  · obtain ⟨ste, hste, hpage⟩ := hr.paged k p hp
    rw [List.getElem?_append] at hste
    split at hste
    · rename_i hlt
      rw [← hr.convert hp]
      simp only [StArray.convertGlobalOffsetToPsa, StArray.steAt, setPba, hste,
        Option.getD_some]
    · rw [List.mem_singleton.mp (List.mem_of_getElem? hste), hnil] at hpage
      cases hpage
  · rw [hpba hnil, ← hr.convert hp]
    rfl

/-! ### Writing to a log -/

/-- The pieces of the tree. -/
def treePsas (g : Geometry) (r : Run δ) : List ℕ := (r.treeEntries g).map (·.psa)

theorem treePsas_eq :
  r.treePsas g = r.runLogMf.map fun x => r.stBody.convertGlobalOffsetToPsa g x.2
  := by
  rw [treePsas, treeEntries, List.map_map]
  rfl

/-- What the insertion into the tree of a log does: the piece that the lba had before is
invalidated. -/
theorem logInsert_ok {lba n : ℕ} {tree : TreeMap} (ht : r.type = .runLog)
    (hasc : r.runLogMf.Asc) (h : r.logInsert g dev lba n = .ok (tree, dev')) :
  tree = (r.runLogMf.insert lba n).2 ∧
  ((r.runLogMf.lookup lba = none ∧ dev' = dev) ∨
    ∃ old, r.runLogMf.lookup lba = some old ∧
      dev.Invalidates g dev' (r.stBody.convertGlobalOffsetToPsa g old))
  := by
  simp only [logInsert, ht, bind_eq_ok, require_eq_ok] at h
  obtain ⟨_, -, h⟩ := h
  rw [TreeMap.insert_fst hasc] at h
  cases hl : r.runLogMf.lookup lba with
  | none =>
      rw [hl] at h
      cases h
      use rfl, .inl ⟨rfl, rfl⟩
  | some old =>
      simp only [hl, bind_eq_ok] at h
      obtain ⟨dev₁, hinv, hret⟩ := h
      cases hret
      use rfl, .inr ⟨old, rfl, (Dev.invalidatePiecePpa_ok hinv).1⟩

/-- One turn of the loop of `__run_write_buffer` keeps the log, whatever the device is. -/
theorem Log.writePiece {lba psa : ℕ} (hr : r.Log g) (hlba : lba ≤ uint32Max)
    (h : r.writePiece g dev lba = .ok (psa, r', dev')) :
  ∃ pba dev₁, r'.Log g ∧ r.Appends r' pba [⟨lba, psa⟩] ∧
    psa = pba * l2pgap + r.stBody.cur.page.length ∧ dev.Validates g dev₁ psa ∧
    (r.setPba pba).logInsert g dev₁ lba r.stBody.globalWritePointer
      = .ok (r'.runLogMf, dev') ∧
    r'.runLogMf = (r.runLogMf.insert lba r.pairs.length).2
  := by
  obtain ⟨pba, dev₁, hfill, happ, hpsa, hval, hlog⟩ := writePiece_ok hr.filling hlba h
  have hpairs := happ.pairs_eq
  obtain ⟨htree, -⟩ := logInsert_ok (r := r.setPba pba) hr.type hr.asc hlog
  change r'.runLogMf = (r.runLogMf.insert lba _).2 at htree
  rw [hr.global] at htree
  refine ⟨pba, dev₁, ?_, happ, hpsa, hval, hlog, htree⟩
  refine ⟨happ.fields.2.2.2.1.trans hr.type, hfill, ?_, ?_, ?_, ?_⟩
  · rw [happ.stes]
    apply hr.stes
  · rw [happ.global, hr.global, hpairs, List.length_append]
  · rw [htree]
    apply hr.asc.insert
  · intro x
    rw [htree, TreeMap.mem_insert hr.asc, hpairs, List.map_append, List.map_singleton,
      isLast_concat, hr.last, List.length_map, Prod.ext_iff]

/-- One turn of the loop of `__run_write_buffer`: the pieces of the tree stay the valid ones. -/
theorem writePiece_log {lba psa : ℕ} (hr : r.Log g) (hlba : lba ≤ uint32Max)
    (hh : dev.Holds (r.treePsas g ++ held)) (h : r.writePiece g dev lba = .ok (psa, r', dev')) :
  ∃ pba, r'.Log g ∧ r.Appends r' pba [⟨lba, psa⟩] ∧
    psa = pba * l2pgap + r.stBody.cur.page.length ∧ psa ∉ r.treePsas g ++ held ∧
    dev'.Holds (r'.treePsas g ++ held) ∧ dev'.data = dev.data ∧ dev'.bm.oob = dev.bm.oob ∧
    (dev.Balanced g → dev'.Balanced g)
  := by
  obtain ⟨pba, dev₁, hlog', happ, hpsa, hval, hlog, htree⟩ := hr.writePiece hlba h
  have hpairs := happ.pairs_eq
  obtain ⟨-, hdev⟩ := logInsert_ok (r := r.setPba pba) hr.type hr.asc hlog
  have hold : ∀ x ∈ r.runLogMf, r'.stBody.convertGlobalOffsetToPsa g x.2
      = r.stBody.convertGlobalOffsetToPsa g x.2 := by
    intro x hx
    obtain ⟨p, hp, -⟩ := hr.pair_of_mem hx
    rw [hr.convert hp]
    apply hlog'.convert
    rw [hpairs, List.getElem?_append_left (List.getElem?_eq_some_iff.mp hp).1, hp]
  have hnew : r'.stBody.convertGlobalOffsetToPsa g r.pairs.length = psa := by
    apply hlog'.convert (p := ⟨lba, psa⟩)
    rw [hpairs]
    simp
  obtain ⟨hfresh, hh₁⟩ := hh.validates hval
  use pba, hlog', happ, hpsa, hfresh
  rcases TreeMap.insert_perm hr.asc lba r.pairs.length with
    ⟨hnone, hperm⟩ | ⟨old, t', hsome, hperm, hperm'⟩
  · rcases hdev with ⟨-, rfl⟩ | ⟨old, hold', -⟩
    · refine ⟨?_, hval.data, hval.oob, hval.balanced⟩
      apply hh₁.perm
      rw [← List.cons_append]
      apply List.Perm.append_right
      rw [treePsas_eq, treePsas_eq, htree]
      apply List.Perm.trans _ (hperm.map _).symm
      rw [List.map_cons, hnew]
      apply List.Perm.of_eq
      congr 1
      apply List.map_congr_left
      intro x hx
      rw [hold x hx]
    · change r.runLogMf.lookup lba = _ at hold'
      rw [hnone] at hold'
      cases hold'
  · rcases hdev with ⟨hnone, -⟩ | ⟨old', hold', hinv⟩
    · change r.runLogMf.lookup lba = _ at hnone
      rw [hsome] at hnone
      cases hnone
    · change r.runLogMf.lookup lba = _ at hold'
      rw [hsome] at hold'
      cases hold'
      have hmem : (lba, old) ∈ r.runLogMf := hperm.mem_iff.mpr (by simp)
      obtain ⟨p, hp, -⟩ := hr.pair_of_mem hmem
      rw [hr.convert_setPba happ.pba_eq hp, ← hr.convert hp] at hinv
      have hh₂ : dev₁.Holds (r.stBody.convertGlobalOffsetToPsa g old ::
          (psa :: t'.map fun x => r.stBody.convertGlobalOffsetToPsa g x.2) ++ held) := by
        apply hh₁.perm
        rw [← List.cons_append]
        apply List.Perm.append_right
        rw [treePsas_eq]
        apply List.Perm.trans ((hperm.map _).cons psa)
        apply List.Perm.swap
      have hset : dev₁.bit (r.stBody.convertGlobalOffsetToPsa g old) = true := by
        rw [hh₂.mem]
        simp
      refine ⟨?_, hinv.data.trans hval.data, hinv.oob.trans hval.oob, ?_⟩
      · apply (hh₂.invalidates hinv).perm
        apply List.Perm.append_right
        rw [treePsas_eq, htree]
        apply List.Perm.trans _ (hperm'.map _).symm
        rw [List.map_cons, hnew]
        apply List.Perm.of_eq
        congr 1
        apply List.map_congr_left
        intro x hx
        rw [hold x (hperm.mem_iff.mpr (by simp [hx]))]
      · intro hb
        apply hinv.balanced hset (hval.balanced hb)

/-- The places that are in the tree after a write and are not new were in it before. -/
theorem Log.mem_of_appends {pba : ℕ} {ps : List SummaryPair} {x : ℕ × ℕ} (hr : r.Log g)
    (hr' : r'.Log g) (h : r.Appends r' pba ps) (hx : x ∈ r'.runLogMf)
    (hlt : x.2 < r.pairs.length) :
  x ∈ r.runLogMf ∧
    r'.stBody.convertGlobalOffsetToPsa g x.2 = r.stBody.convertGlobalOffsetToPsa g x.2
  := by
  have hmem : x ∈ r.runLogMf := by
    rw [hr.last]
    apply IsLast.of_append (ps.map (·.lba)) _ (by simpa using hlt)
    rw [← List.map_append, ← h.pairs_eq, ← hr'.last]
    apply hx
  obtain ⟨p, hp, -⟩ := hr.pair_of_mem hmem
  use hmem
  rw [hr.convert hp]
  apply hr'.convert
  rw [h.pairs_eq, List.getElem?_append_left (List.getElem?_eq_some_iff.mp hp).1, hp]

/-- What the loop of `__run_write_buffer` does to a log.  The new pieces are none of those
that others hold, and none of the older ones that are still in the tree. -/
theorem writePieces_log {lbas psas : List ℕ} (hlbas : ∀ lba ∈ lbas, lba ≤ uint32Max) :
  ∀ {r : Run δ} {dev : Dev δ}, r.Log g → dev.Holds (r.treePsas g ++ held) →
    writePieces g lbas r dev = .ok (psas, r', dev') →
    ∃ pba, r'.Log g ∧ r.Appends r' pba (lbas.zipWith SummaryPair.mk psas) ∧
      psas = pieces pba r.stBody.cur.page.length lbas.length ∧
      dev'.Holds (r'.treePsas g ++ held) ∧ dev'.data = dev.data ∧ dev'.bm.oob = dev.bm.oob ∧
      (∀ q ∈ psas, q ∉ held) ∧
      (∀ x ∈ r'.runLogMf, x.2 < r.pairs.length →
        r'.stBody.convertGlobalOffsetToPsa g x.2 ∉ psas) ∧
      (dev.Balanced g → dev'.Balanced g)
  := by
  induction lbas generalizing psas with
  | nil =>
      intro r dev hr hh h
      cases h
      exact ⟨_, hr, Appends.refl _, rfl, hh, rfl, rfl, by simp, by simp, id⟩
  | cons lba lbas ih =>
      intro r dev hr hh h
      simp only [writePieces, bind_eq_ok] at h
      obtain ⟨⟨psa, r₁, dev₁⟩, hfst, ⟨psas, r₂, dev₂⟩, hrest, hret⟩ := h
      cases hret
      dsimp only at hrest
      obtain ⟨pba, hr₁, happ, hpsa, hfresh, hh₁, hdata₁, hoob₁, hbal₁⟩ :=
        writePiece_log hr (hlbas lba (by simp)) hh hfst
      obtain ⟨pba', hr₂, happ', hpsas, hh₂, hdata₂, hoob₂, hnew, hkeep, hbal₂⟩ :=
        ih (fun l hl => hlbas l (by simp [hl])) hr₁ hh₁ hrest
      have hfull := happ.trans happ' (by simp)
      refine ⟨pba, hr₂, hfull, ?_, hh₂, hdata₂.trans hdata₁, hoob₂.trans hoob₁, ?_, ?_, ?_⟩
      · cases lbas with
        | nil => simpa [pieces, hpsa] using hpsas
        | cons l ls =>
            have hne : r₁.stBody.cur.page ≠ [] := by simp [happ.page]
            have hpba : pba' = pba := by rw [happ'.pba_eq hne, happ.cur_pba]
            rw [List.length_cons, pieces_succ, ← hpsa, hpsas, hpba, happ.page]
            simp
      · intro q hq
        rcases List.mem_cons.mp hq with rfl | hq
        · intro hheld
          apply hfresh (List.mem_append.mpr (.inr hheld))
        · apply hnew q hq
      · intro x hx hlt
        obtain ⟨hmem, hconv⟩ := hr.mem_of_appends hr₂ hfull hx hlt
        rw [List.mem_cons]
        rintro (heq | hin)
        · apply hfresh
          rw [List.mem_append, treePsas_eq, List.mem_map]
          left
          use x, hmem, hconv.symm.trans heq
        · apply hkeep x hx _ hin
          rw [happ.pairs_eq, List.length_append]
          omega
      · intro hb
        apply hbal₂ (hbal₁ hb)

/-- The log has written the sectors `items`: its valid pieces are those of the tree, and they
have the data of the last sector of their lba. -/
structure Logs (g : Geometry) (held : List ℕ) (r : Run δ) (dev : Dev δ)
    (items : List (ℕ × δ)) : Prop where
  lbas : items.map (·.1) = r.pairs.map (·.lba)
  holds : dev.Holds (r.treePsas g ++ r.sums ++ held)
  data : ∀ x ∈ r.runLogMf,
    items[x.2]? = some (x.1, dev.data (r.stBody.convertGlobalOffsetToPsa g x.2))

/-- The out-of-band area of every piece of the tree has its lba. -/
def Tagged (g : Geometry) (r : Run δ) (dev : Dev δ) : Prop :=
  ∀ x ∈ r.runLogMf, dev.bm.oob (r.stBody.convertGlobalOffsetToPsa g x.2) = x.1

theorem zipWith_pair {items : List (ℕ × δ)} {psas : List ℕ} {i : ℕ} {p : SummaryPair}
    (h : ((items.map (·.1)).zipWith SummaryPair.mk psas)[i]? = some p) :
  ∃ d, items[i]? = some (p.lba, d) ∧ psas[i]? = some p.piecePpa
  := by
  rw [List.getElem?_zipWith, List.getElem?_map] at h
  cases hi : items[i]? with
  | none => simp [hi] at h
  | some x =>
      cases hq : psas[i]? with
      | none => simp [hq] at h
      | some q =>
          rw [hi, hq] at h
          cases h
          exact ⟨x.2, rfl, rfl⟩

theorem getElem?_pieces {pba offset n i q : ℕ} (h : (pieces pba offset n)[i]? = some q) :
  i < n ∧ q = pba * l2pgap + offset + i
  := by
  have hi : i < n := by simpa [pieces] using (List.getElem?_eq_some_iff.mp h).1
  rw [pieces, List.getElem?_map, List.getElem?_range hi] at h
  cases h
  use hi, (Nat.add_assoc _ _ _).symm

/-- The lbas of a page that is written. -/
theorem map_lba_zipWith {lbas psas : List ℕ} (hlen : lbas.length = psas.length) :
  (lbas.zipWith SummaryPair.mk psas).map (·.lba) = lbas
  := by
  rw [List.map_zipWith]
  apply List.ext_getElem
  · simp [hlen]
  · intro i hi hi'
    simp

/-- A place of the tree after a page has been written is an older one, or one of the new page. -/
theorem Log.place_cases {items new : List (ℕ × δ)} {psas : List ℕ} {pba : ℕ} {x : ℕ × ℕ}
    (hr : r.Log g) (hr' : r'.Log g)
    (happ : r.Appends r' pba ((new.map (·.1)).zipWith SummaryPair.mk psas))
    (hpsas : psas = pieces pba r.stBody.cur.page.length new.length)
    (hlen : items.length = r.pairs.length)
    (hkeep : x.2 < r.pairs.length → r'.stBody.convertGlobalOffsetToPsa g x.2 ∉ psas)
    (hx : x ∈ r'.runLogMf) :
  (x ∈ r.runLogMf ∧ r'.stBody.convertGlobalOffsetToPsa g x.2
      = r.stBody.convertGlobalOffsetToPsa g x.2 ∧
      r'.stBody.convertGlobalOffsetToPsa g x.2 ∉ psas) ∨
    ∃ i d, x.2 = items.length + i ∧ new[i]? = some (x.1, d) ∧
      r'.stBody.convertGlobalOffsetToPsa g x.2
        = pba * l2pgap + r.stBody.cur.page.length + i
  := by
  by_cases hlt : x.2 < r.pairs.length
  · left
    obtain ⟨hmem, hconv⟩ := hr.mem_of_appends hr' happ hx hlt
    use hmem, hconv, hkeep hlt
  · right
    obtain ⟨p, hp, hlba⟩ := hr'.pair_of_mem hx
    have hp' := hp
    rw [happ.pairs_eq, List.getElem?_append_right (Nat.le_of_not_lt hlt)] at hp'
    obtain ⟨d, hd, hq⟩ := zipWith_pair hp'
    rw [hpsas] at hq
    refine ⟨x.2 - r.pairs.length, d, ?_, ?_, ?_⟩
    · rw [hlen]
      omega
    · rw [hd, hlba]
    · rw [hr'.convert hp, (getElem?_pieces hq).2]

/-- `__run_write_buffer` of a log. -/
theorem writeBuffer_log {pp : PpBuffer δ} {items : List (ℕ × δ)} (hlog₀ : r.Log g)
    (hr : r.Logs g held dev items) (halign : r.stBody.cur.page.length % l2pgap = 0)
    (hpos : pp.items ≠ []) (hlen : pp.items.length ≤ l2pgap)
    (hlbas : ∀ x ∈ pp.items, x.1 ≤ uint32Max) (h : r.writeBuffer g pp dev = .ok (r', dev')) :
  r'.Log g ∧ r'.Logs g held dev' (items ++ pp.items) ∧ r.SameShape r' ∧
    r'.stBody.stes = r.stBody.stes ∧
    r'.stBody.cur.page.length = r.stBody.cur.page.length + pp.items.length ∧
    r'.nowEntryNum = r.nowEntryNum ∧ (∀ q ∈ held, dev'.data q = dev.data q) ∧
    (pp.items.length = l2pgap → r.Tagged g dev → r'.Tagged g dev') ∧
    (dev.Balanced g → dev'.Balanced g)
  := by
  simp only [writeBuffer, bind_eq_ok] at h
  obtain ⟨⟨psas, r₁, dev₁⟩, hw, hret⟩ := h
  have hl : ∀ lba ∈ pp.items.map (·.1), lba ≤ uint32Max := by
    intro lba hlba
    obtain ⟨x, hx, rfl⟩ := List.mem_map.mp hlba
    apply hlbas x hx
  have hh := hr.holds
  rw [List.append_assoc] at hh
  obtain ⟨pba, hlog, happ, hpsas, hh', hdata, hoob, hnew, hkeep, hbal⟩ :=
    writePieces_log hl hlog₀ hh hw
  rw [List.length_map] at hpsas
  have hbase : (pba * l2pgap + r.stBody.cur.page.length) % l2pgap = 0 := by
    rw [Nat.add_mod, Nat.mul_mod_left, halign]
    rfl
  have htarget : targetPpa psas = (pba * l2pgap + r.stBody.cur.page.length) / l2pgap := by
    obtain ⟨x, xs, hitems⟩ := List.exists_cons_of_ne_nil hpos
    rw [hpsas, hitems, List.length_cons, pieces_succ, targetPpa]
  dsimp only at hret
  rw [htarget] at hret
  cases hret
  have hvlen : (pp.items.map (·.2)).length ≤ l2pgap := by simpa using hlen
  have holen : pp.lbas.length = l2pgap := by
    simp only [PpBuffer.lbas, List.length_append, List.length_map, List.length_replicate]
    omega
  have hilen : items.length = r.pairs.length := by
    simpa using congrArg List.length hr.lbas
  have hplen : psas.length = pp.items.length := by
    rw [hpsas]
    simp [pieces]
  have hsame : ∀ q, q ∉ psas → (dev₁.issueWrite ((pba * l2pgap + r.stBody.cur.page.length)
      / l2pgap) (pp.items.map (·.2)) pp.lbas).data q = dev.data q := by
    intro q hq
    rw [← hdata]
    apply issueWrite_data_of_notMem hbase hvlen
    rw [List.length_map, ← hpsas]
    apply hq
  have hplace := fun x hx => hlog₀.place_cases (x := x) hlog happ hpsas hilen (hkeep x hx) hx
  refine ⟨hlog, ⟨?_, ?_, ?_⟩, happ.sameShape, happ.stes, ?_, happ.fields.2.2.1, ?_, ?_, ?_⟩
  · rw [happ.pairs_eq, List.map_append, List.map_append, hr.lbas, map_lba_zipWith]
    rw [List.length_map, hplen]
  · have hsums : r'.sums = r.sums := by rw [sums, sums, happ.stes]
    rw [hsums, List.append_assoc]
    apply holds_issueWrite.mpr hh'
  · intro x hx
    rcases hplace x hx with ⟨hmem, hconv, hnot⟩ | ⟨i, d, hi, hd, hconv⟩
    · have hold := hr.data x hmem
      rw [hsame _ hnot, hconv,
        List.getElem?_append_left (List.getElem?_eq_some_iff.mp hold).1, hold]
    · have hd' : (pp.items.map (·.2))[i]? = some d := by rw [List.getElem?_map, hd]; rfl
      rw [hi, List.getElem?_append_right (Nat.le_add_right _ _), Nat.add_sub_cancel_left, hd,
        ← hi, hconv, issueWrite_data_piece hbase hvlen hd']
  · rw [happ.page, List.length_append, List.length_zipWith, List.length_map, hplen, Nat.min_self]
  · intro q hq
    apply hsame
    intro hmem
    apply hnew q hmem
    simp [hq]
  · intro hfull htag x hx
    rcases hplace x hx with ⟨hmem, hconv, hnot⟩ | ⟨i, d, hi, hd, hconv⟩
    · rw [issueWrite_oob_of_notMem hbase (Nat.le_of_eq holen), hoob, hconv, htag x hmem]
      rw [holen, ← hfull, ← hpsas]
      apply hnot
    · have hi' : i < pp.items.length := (List.getElem?_eq_some_iff.mp hd).1
      have hlba : pp.lbas[i]? = some x.1 := by
        rw [PpBuffer.lbas, List.getElem?_append_left (by simpa using hi'), List.getElem?_map, hd]
        rfl
      rw [hconv, issueWrite_oob_piece hbase (Nat.le_of_eq holen) hlba]
  · intro hb
    apply balanced_issueWrite (hbal hb)

/-! ### Closing blocks of a log -/

theorem finish_pairs (q a b : ℕ) :
  (r.finish q a b).pairs = r.pairs
  := by simp [finish, pairs, StArray.finishSte, Ste.empty]

/-- The numbers of the pairs stay when an entry is finished. -/
theorem Paged.finish {q a b : ℕ} (hr : r.Paged g) :
  (r.finish q a b).Paged g
  := by
  intro k p hp
  rw [finish_pairs] at hp
  obtain ⟨ste, hste, hpage⟩ := hr k p hp
  simp only [Run.finish, StArray.finishSte]
  rw [List.getElem?_append] at hste
  split at hste
  · rename_i hlt
    refine ⟨ste, ?_, hpage⟩
    rw [List.append_assoc, List.getElem?_append_left hlt, hste]
  · rename_i hlt
    have hlast : k / g.maxSectorInBlock - r.stBody.stes.length = 0 := by
      have := (List.getElem?_eq_some_iff.mp hste).1
      simp only [List.length_singleton] at this
      omega
    rw [hlast] at hste
    cases hste
    refine ⟨{ r.stBody.cur with piecePpa := q }, ?_, hpage⟩
    rw [List.append_assoc, List.getElem?_append_right (Nat.le_of_not_lt hlt), hlast]
    rfl

/-- A log that is finished. -/
structure LogDone (g : Geometry) (r : Run δ) : Prop where
  type : r.type = .runLog
  filling : r.stBody.Filling g
  stes : ∀ ste ∈ r.stBody.stes, ste.Meta g ∧ ste.page ≠ [] ∧ ste.unlinkedDataCopy = false
  nil : r.stBody.cur.page = []
  paged : r.Paged g
  asc : r.runLogMf.Asc
  last : ∀ x, x ∈ r.runLogMf ↔ IsLast (r.pairs.map (·.lba)) x.1 x.2

theorem LogDone.convert {k : ℕ} {p : SummaryPair} (hr : r.LogDone g)
    (hp : r.pairs[k]? = some p) :
  r.stBody.convertGlobalOffsetToPsa g k = p.piecePpa
  := by
  apply hr.paged.convert _ hp
  intro ste hste
  rcases List.mem_append.mp hste with hste | hste
  · apply (hr.stes ste hste).1
  · rw [List.mem_singleton.mp hste]
    apply hr.filling.cur

theorem LogDone.pair_of_mem {x : ℕ × ℕ} (hr : r.LogDone g) (hx : x ∈ r.runLogMf) :
  ∃ p, r.pairs[x.2]? = some p ∧ p.lba = x.1
  := by
  have hk := ((hr.last x).mp hx).1
  rw [List.getElem?_map] at hk
  obtain ⟨p, hp, hlba⟩ := Option.map_eq_some_iff.mp hk
  use p, hp, hlba

/-- The current entry of a log is finished, whatever the device is. -/
theorem Log.finish_done {q a b : ℕ} (hr : r.Log g) (hne : r.stBody.cur.page ≠ []) :
  (r.finish q a b).LogDone g ∧ (∀ ste ∈ (r.finish q a b).stBody.stes, ste.copied = false) ∧
    (r.stBody.cur.page.length = g.maxSectorInBlock → (r.finish q a b).Log g)
  := by
  have hfill := hr.filling
  have hfill' : (r.finish q a b).stBody.Filling g := by
    refine ⟨rfl, Nat.zero_le _, ?_, rfl, Ste.meta_empty g, rfl, rfl⟩
    have := g.maxSectorInBlock_pos
    simp only [Run.finish, StArray.finishSte, Ste.empty, List.length_nil, Bool.false_eq_true,
      false_iff]
    omega
  have hc := hfill.cur
  have hmeta : Ste.Meta g { r.stBody.cur with piecePpa := q } :=
    ⟨hc.start_le, hc.start_mem, hc.start_top, hc.le_end, hc.end_mem, hc.end_bot, hc.piece,
      hc.dvd, hc.sorted, hc.length_le⟩
  have hpairs := finish_pairs (r := r) q a b
  have hlast : ∀ x, x ∈ (r.finish q a b).runLogMf
      ↔ IsLast ((r.finish q a b).pairs.map (·.lba)) x.1 x.2 := by
    intro x
    rw [hpairs]
    apply hr.last
  refine ⟨⟨hr.type, hfill', ?_, rfl, hr.paged.finish, hr.asc, hlast⟩, ?_, ?_⟩
  · intro ste hste
    simp only [Run.finish, StArray.finishSte, List.mem_append, List.mem_singleton] at hste
    rcases hste with hste | rfl
    · obtain ⟨hm, hlen, -, hflag⟩ := hr.stes ste hste
      refine ⟨hm, ?_, hflag⟩
      rintro hnil
      have := g.maxSectorInBlock_pos
      rw [hnil, List.length_nil] at hlen
      omega
    · use hmeta, hne, hfill.own.2
  · intro ste hste
    simp only [Run.finish, StArray.finishSte, List.mem_append, List.mem_singleton] at hste
    rcases hste with hste | rfl
    · apply (hr.stes ste hste).2.2.1
    · apply hfill.own.1
  · intro hfull
    refine ⟨hr.type, hfill', ?_, ?_, hr.asc, hlast⟩
    · intro ste hste
      simp only [Run.finish, StArray.finishSte, List.mem_append, List.mem_singleton] at hste
      rcases hste with hste | rfl
      · apply hr.stes ste hste
      · use hmeta, hfull, hfill.own.1, hfill.own.2
    · rw [hpairs]
      apply hr.global

/-- The current entry of a log is finished with a summary page at `q`. -/
theorem Log.finish {q a b : ℕ} {items : List (ℕ × δ)} (hr : r.Log g)
    (hs : r.Logs g held dev items) (hne : r.stBody.cur.page ≠ [])
    (hval : dev.Validates g dev' q) :
  (r.finish q a b).LogDone g ∧ (r.finish q a b).Logs g held dev' items ∧
    (∀ ste ∈ (r.finish q a b).stBody.stes, ste.copied = false) ∧
    (r.stBody.cur.page.length = g.maxSectorInBlock → (r.finish q a b).Log g) ∧
    (r.Tagged g dev → (r.finish q a b).Tagged g dev')
  := by
  obtain ⟨hdone, hcopied, hfull⟩ := hr.finish_done (q := q) (a := a) (b := b) hne
  have hpairs := finish_pairs (r := r) q a b
  have hconv : ∀ x ∈ r.runLogMf, (r.finish q a b).stBody.convertGlobalOffsetToPsa g x.2
      = r.stBody.convertGlobalOffsetToPsa g x.2 := by
    intro x hx
    obtain ⟨p, hp, -⟩ := hr.pair_of_mem hx
    rw [hr.convert hp, hdone.convert (hpairs ▸ hp)]
  have hpsas : (r.finish q a b).treePsas g = r.treePsas g := by
    rw [treePsas_eq, treePsas_eq]
    apply List.map_congr_left hconv
  refine ⟨hdone, ⟨?_, ?_, ?_⟩, hcopied, hfull, ?_⟩
  · rw [hpairs]
    apply hs.lbas
  · apply (hs.holds.validates hval).2.perm
    rw [hpsas]
    simp only [sums, Run.finish, StArray.finishSte, List.map_append, List.map_cons,
      List.map_nil, List.append_assoc, List.cons_append, List.nil_append]
    rw [← List.append_assoc, ← List.append_assoc]
    apply List.perm_middle.symm
  · intro x hx
    rw [hconv x hx, hval.data]
    apply hs.data x hx
  · intro htag x hx
    rw [hconv x hx, hval.oob]
    apply htag x hx

/-- A log that can be written to.  The sectors `items` are on flash, in pages that are
full. -/
structure LogOpen (g : Geometry) (held : List ℕ) (r : Run δ) (dev : Dev δ)
    (items : List (ℕ × δ)) : Prop where
  log : r.Log g
  logs : r.Logs g held dev items
  lt : r.stBody.cur.page.length < g.maxSectorInBlock
  aligned : r.stBody.cur.page.length % l2pgap = 0
  pages : items.length % l2pgap = 0
  short : r.buffered.length < l2pgap
  lba_le : ∀ x ∈ r.buffered, x.1 ≤ uint32Max

/-- `run_insert` of a log after its checks. -/
theorem insertSector_log {lba : ℕ} {d : δ} {items : List (ℕ × δ)}
    (hr : r.LogOpen g held dev items) (hlba : lba ≤ uint32Max)
    (h : r.insertSector g dev lba d = .ok (r', dev')) :
  ∃ items', r'.LogOpen g held dev' items' ∧
    items' ++ r'.buffered = items ++ r.buffered ++ [(lba, d)] ∧ r.SameShape r' ∧
    r'.nowEntryNum = r.nowEntryNum + 1 ∧ (∀ q ∈ held, dev'.data q = dev.data q) ∧
    (r.Tagged g dev → r'.Tagged g dev') ∧ (dev.Balanced g → dev'.Balanced g)
  := by
  have hlbas : ∀ x ∈ (r.ppInsert lba d).items, x.1 ≤ uint32Max := by
    intro x hx
    rw [ppInsert_items] at hx
    rcases List.mem_append.mp hx with hx | hx
    · apply hr.lba_le x hx
    · rw [List.mem_singleton.mp hx]
      apply hlba
  rcases insertSector_ok (alert_eq_false hr.log.filling hr.lt) h with
    ⟨hlen, r₀, r₁, dev₀, hw, hmeta, rfl⟩ | ⟨hlen, rfl, rfl⟩
  · obtain ⟨hlog, hlogs, hshape, -, hcur, hnow, hdata, htag, hbal⟩ := writeBuffer_log hr.log
      hr.logs hr.aligned (by simp [ppInsert_items]) (Nat.le_of_eq hlen) hlbas hw
    have hpages : (items ++ (r.ppInsert lba d).items).length % l2pgap = 0 := by
      rw [List.length_append, hlen, Nat.add_mod_right, hr.pages]
    have heq : items ++ (r.ppInsert lba d).items = items ++ r.buffered ++ [(lba, d)] := by
      rw [ppInsert_items, List.append_assoc]
    have hshape' : r.SameShape r₀.reinit :=
      ⟨hshape.type, hshape.info, hshape.maxEntryNum, hshape.limitEntryNum, hshape.maxSteNum,
        hshape.mapType⟩
    have hlog' : r₀.reinit.Log g :=
      ⟨hlog.type, hlog.filling, hlog.stes, hlog.global, hlog.asc, hlog.last⟩
    have hlogs' : r₀.reinit.Logs g held dev₀ (items ++ (r.ppInsert lba d).items) :=
      ⟨hlogs.lbas, hlogs.holds, hlogs.data⟩
    unfold writeMetaOnAlert at hmeta
    split at hmeta
    · rename_i halert
      have hfull := hlog'.filling.alert.mp halert
      have hne : r₀.reinit.stBody.cur.page ≠ [] := by
        intro hnil
        have := g.maxSectorInBlock_pos
        rw [hnil, List.length_nil] at hfull
        omega
      rcases writeMeta_ok hmeta with ⟨hwf, -, -⟩ | ⟨-, q, a, b, hval, rfl⟩
      · exact absurd (hlog'.filling.writing.symm.trans hwf) (by simpa using hne)
      · obtain ⟨-, hlogs'', -, hlog'', htag'⟩ :=
          hlog'.finish (a := a) (b := b) hlogs' hne hval
        have hlog'' := hlog'' hfull
        refine ⟨_, ⟨⟨hlog''.type, hlog''.filling, hlog''.stes, hlog''.global, hlog''.asc,
          hlog''.last⟩, ⟨hlogs''.lbas, hlogs''.holds, hlogs''.data⟩, g.maxSectorInBlock_pos,
          rfl, hpages, Nat.succ_pos 3, ?_⟩, ?_, ?_, ?_, ?_, ?_, ?_⟩
        · intro x hx
          cases hx
        · simpa [buffered, reinit, PpBuffer.reinitBuffer] using heq
        · exact ⟨hshape'.type, hshape'.info, hshape'.maxEntryNum, hshape'.limitEntryNum,
            hshape'.maxSteNum, hshape'.mapType⟩
        · exact congrArg (· + 1) hnow
        · intro q hq
          rw [hval.data]
          apply hdata q hq
        · intro ht
          apply htag' (htag hlen ht)
        · intro hb
          apply hval.balanced (hbal hb)
    · rename_i halert
      cases hmeta
      refine ⟨_, ⟨⟨hlog'.type, hlog'.filling, hlog'.stes, hlog'.global, hlog'.asc,
        hlog'.last⟩, ⟨hlogs'.lbas, hlogs'.holds, hlogs'.data⟩, ?_, ?_, hpages, Nat.succ_pos 3, ?_⟩,
        ?_, ?_, ?_, hdata, htag hlen, hbal⟩
      · apply lt_of_le_of_ne hlog'.filling.le
        apply mt hlog'.filling.alert.mpr halert
      · change r₀.stBody.cur.page.length % l2pgap = 0
        rw [hcur, hlen, Nat.add_mod_right, hr.aligned]
      · intro x hx
        cases hx
      · simpa [buffered, reinit, PpBuffer.reinitBuffer] using heq
      · exact ⟨hshape'.type, hshape'.info, hshape'.maxEntryNum, hshape'.limitEntryNum,
          hshape'.maxSteNum, hshape'.mapType⟩
      · exact congrArg (· + 1) hnow
  · have hl := hr.log
    refine ⟨items, ⟨⟨hl.type, hl.filling, hl.stes, hl.global, hl.asc, hl.last⟩,
      ⟨hr.logs.lbas, hr.logs.holds, hr.logs.data⟩, hr.lt, hr.aligned, hr.pages, ?_, hlbas⟩,
      ?_, ⟨rfl, rfl, rfl, rfl, rfl, rfl⟩, rfl, fun _ _ => rfl, id, id⟩
    · change (r.ppInsert lba d).items.length < l2pgap
      have hs := hr.short
      rw [ppInsert_items, List.length_append, List.length_singleton] at hlen ⊢
      omega
    · change items ++ (r.ppInsert lba d).items = _
      rw [ppInsert_items, List.append_assoc]

/-- `run_insert_done` of a log. -/
theorem insertDone_log {items : List (ℕ × δ)} (hr : r.LogOpen g held dev items)
    (h : r.insertDone g dev = .ok (r', dev')) :
  r'.LogDone g ∧ r'.Logs g held dev' (items ++ r.buffered) ∧ r.SameShape r' ∧
    r'.nowEntryNum = r.nowEntryNum ∧ (∀ q ∈ held, dev'.data q = dev.data q) ∧
    (∀ ste ∈ r'.stBody.stes, ste.copied = false) ∧ (dev.Balanced g → dev'.Balanced g)
  := by
  simp only [insertDone, bind_eq_ok] at h
  obtain ⟨⟨r₁, dev₁⟩, hflush, ⟨r₂, dev₂⟩, hmeta, hret⟩ := h
  cases hret
  dsimp only at hmeta ⊢
  obtain ⟨hlog, hlogs, hshape, hnow, hdata, hbal⟩ : r₁.Log g ∧
      r₁.Logs g held dev₁ (items ++ r.buffered) ∧ r.SameShape r₁ ∧
      r₁.nowEntryNum = r.nowEntryNum ∧ (∀ q ∈ held, dev₁.data q = dev.data q) ∧
      (dev.Balanced g → dev₁.Balanced g) := by
    unfold flushBuffer at hflush
    split at hflush
    · rename_i hpp
      cases hflush
      have hbuf : r.buffered = [] := by
        rw [buffered, hpp]
        rfl
      rw [hbuf, List.append_nil]
      use hr.log, hr.logs, SameShape.refl _, rfl, fun _ _ => rfl, id
    · rename_i pp hpp
      have hbuf : r.buffered = pp.items := by
        rw [buffered, hpp]
        rfl
      split at hflush
      · rename_i hnil
        cases hflush
        rw [hbuf, hnil, List.append_nil]
        use hr.log, hr.logs, SameShape.refl _, rfl, fun _ _ => rfl, id
      · rename_i hpos
        rw [bind_eq_ok] at hflush
        obtain ⟨⟨r₀, dev₀⟩, hw, hret⟩ := hflush
        cases hret
        obtain ⟨hlog, hlogs, hshape, -, -, hnow, hdata, -, hbal⟩ := writeBuffer_log hr.log
          hr.logs hr.aligned hpos (Nat.le_of_lt (hbuf ▸ hr.short)) (hbuf ▸ hr.lba_le) hw
        rw [hbuf]
        exact ⟨⟨hlog.type, hlog.filling, hlog.stes, hlog.global, hlog.asc, hlog.last⟩,
          ⟨hlogs.lbas, hlogs.holds, hlogs.data⟩, ⟨hshape.type, hshape.info,
            hshape.maxEntryNum, hshape.limitEntryNum, hshape.maxSteNum, hshape.mapType⟩,
          hnow, hdata, hbal⟩
  rcases writeMeta_ok hmeta with ⟨hwf, rfl, rfl⟩ | ⟨hw, q, a, b, hval, rfl⟩
  · have hfill := hlog.filling
    have hnil : r₁.stBody.cur.page = [] := by simpa [hwf] using hfill.writing
    refine ⟨⟨hlog.type, ⟨hfill.inblock, hfill.le, hfill.alert, hfill.writing, hfill.cur,
      hfill.own⟩, ?_, hnil, hlog.paged, hlog.asc, hlog.last⟩, ⟨hlogs.lbas, hlogs.holds,
      hlogs.data⟩, ⟨hshape.type, hshape.info, hshape.maxEntryNum, hshape.limitEntryNum,
        hshape.maxSteNum, hshape.mapType⟩, hnow, hdata, ?_, hbal⟩
    · intro ste hste
      obtain ⟨hm, hlen, -, hflag⟩ := hlog.stes ste hste
      refine ⟨hm, ?_, hflag⟩
      rintro hnil
      have := g.maxSectorInBlock_pos
      rw [hnil, List.length_nil] at hlen
      omega
    · intro ste hste
      apply (hlog.stes ste hste).2.2.1
  · have hne : r₁.stBody.cur.page ≠ [] := by simpa [hw] using hlog.filling.writing
    obtain ⟨hdone, hlogs', hcopied, -, -⟩ := hlog.finish (a := a) (b := b) hlogs hne hval
    refine ⟨⟨hdone.type, hdone.filling, hdone.stes, hdone.nil, hdone.paged, hdone.asc,
      hdone.last⟩, ⟨hlogs'.lbas, hlogs'.holds, hlogs'.data⟩, ⟨hshape.type, hshape.info,
        hshape.maxEntryNum, hshape.limitEntryNum, hshape.maxSteNum, hshape.mapType⟩, hnow,
      ?_, hcopied, ?_⟩
    · intro x hx
      rw [hval.data]
      apply hdata x hx
    · intro hb
      apply hval.balanced (hbal hb)

end Run

end AppL
