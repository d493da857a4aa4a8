import Mathlib.Data.Finset.Card
import AppL.Lsm.Division

/-!
# The memtable

What the memtable of a tree is, in every state between two calls of `lsmtree_insert`: a log
that holds the sectors written to it, whose lbas all have an owner.  When it is flushed, every
block except the last one is full.
-/

namespace AppL

open Transition

namespace Run

variable {δ : Type} {g : Geometry} {r r' : Run δ} {dev dev' : Dev δ} {xs : List ℕ}

/-- A log that sectors with the lbas `xs` have been written to, in this order. -/
structure Fills (g : Geometry) (r : Run δ) (xs : List ℕ) : Prop where
  log : r.Log g
  lt : r.stBody.cur.page.length < g.maxSectorInBlock
  lba_le : ∀ x ∈ r.buffered, x.1 ≤ uint32Max
  lbas : r.pairs.map (·.lba) ++ r.buffered.map (·.1) = xs
  num : r.nowEntryNum = xs.length

/-- The number of pairs of a log, by its blocks. -/
theorem Log.length_pairs (h : r.Log g) :
  r.pairs.length = r.stBody.stes.length * g.maxSectorInBlock + r.stBody.cur.page.length
  := by
  have hfull : ∀ stes : List Ste, (∀ ste ∈ stes, ste.page.length = g.maxSectorInBlock) →
      (stes.flatMap (·.page)).length = stes.length * g.maxSectorInBlock := by
    intro stes
    induction stes with
    | nil =>
        intro _
        simp
    | cons ste stes ih =>
        intro hlen
        rw [List.flatMap_cons, List.length_append, ih fun x hx => hlen x (by simp [hx]),
          hlen ste (by simp), List.length_cons, Nat.succ_mul, Nat.add_comm]
  rw [pairs, List.flatMap_append, List.length_append, List.flatMap_singleton,
    hfull _ fun ste hste => (h.stes ste hste).2.1]

/-! ### Writing to a log -/

theorem Log.writePieces (lbas : List ℕ) (hlbas : ∀ lba ∈ lbas, lba ≤ uint32Max) :
  ∀ {r : Run δ} {dev : Dev δ} {psas : List ℕ}, r.Log g →
    writePieces g lbas r dev = .ok (psas, r', dev') →
    r'.Log g ∧ r'.pairs.map (·.lba) = r.pairs.map (·.lba) ++ lbas ∧
      r'.nowEntryNum = r.nowEntryNum ∧ r'.info = r.info
  := by
  induction lbas with
  | nil =>
      intro r dev psas hr h
      cases h
      exact ⟨hr, by simp, rfl, rfl⟩
  | cons lba lbas ih =>
      intro r dev psas hr h
      simp only [Run.writePieces, bind_eq_ok] at h
      obtain ⟨⟨psa, r₁, dev₁⟩, hfst, ⟨psas, r₂, dev₂⟩, hrest, hret⟩ := h
      cases hret
      obtain ⟨pba, -, hr₁, happ, -⟩ := hr.writePiece (hlbas lba (by simp)) hfst
      obtain ⟨hr₂, hpairs, hnow, hinfo⟩ := ih (fun l hl => hlbas l (by simp [hl])) hr₁ hrest
      refine ⟨hr₂, ?_, hnow.trans happ.fields.2.2.1, hinfo.trans happ.fields.2.2.2.2.1⟩
      rw [hpairs, happ.pairs_eq]
      simp

theorem Log.writeBuffer {pp : PpBuffer δ} (hr : r.Log g)
    (hlbas : ∀ x ∈ pp.items, x.1 ≤ uint32Max) (h : r.writeBuffer g pp dev = .ok (r', dev')) :
  r'.Log g ∧ r'.pairs.map (·.lba) = r.pairs.map (·.lba) ++ pp.items.map (·.1) ∧
    r'.nowEntryNum = r.nowEntryNum ∧ r'.info = r.info
  := by
  simp only [Run.writeBuffer, bind_eq_ok] at h
  obtain ⟨⟨psas, r₁, dev₁⟩, hw, hret⟩ := h
  cases hret
  apply hr.writePieces _ _ hw
  intro lba hlba
  obtain ⟨x, hx, rfl⟩ := List.mem_map.mp hlba
  apply hlbas x hx

/-- A log with another buffer and another number of entries. -/
theorem Log.congr (hr : r.Log g) (hs : r'.stBody = r.stBody) (htype : r'.type = r.type)
    (htree : r'.runLogMf = r.runLogMf) :
  r'.Log g
  := by
  have hpairs : r'.pairs = r.pairs := by rw [pairs, pairs, hs]
  refine ⟨htype.trans hr.type, hs ▸ hr.filling, hs ▸ hr.stes, ?_, htree ▸ hr.asc, ?_⟩
  · rw [hs, hpairs]
    apply hr.global
  · rw [htree, hpairs]
    apply hr.last

/-- `run_insert` of a log after its checks. -/
theorem Fills.insertSector {lba : ℕ} {d : δ} (hr : r.Fills g xs) (hlba : lba ≤ uint32Max)
    (h : r.insertSector g dev lba d = .ok (r', dev')) :
  r'.Fills g (xs ++ [lba]) ∧ r'.info = r.info
  := by
  have hlbas : ∀ x ∈ (r.ppInsert lba d).items, x.1 ≤ uint32Max := by
    intro x hx
    rw [ppInsert_items] at hx
    rcases List.mem_append.mp hx with hx | hx
    · apply hr.lba_le x hx
    · rw [List.mem_singleton.mp hx]
      apply hlba
  have hitems : r.pairs.map (·.lba) ++ (r.ppInsert lba d).items.map (·.1) = xs ++ [lba] := by
    rw [ppInsert_items, List.map_append, ← List.append_assoc, hr.lbas]
    rfl
  rcases insertSector_ok (alert_eq_false hr.log.filling hr.lt) h with
    ⟨-, r₀, r₁, dev₀, hw, hmeta, rfl⟩ | ⟨-, rfl, rfl⟩
  · obtain ⟨hlog, hpairs, hnow, hinfo⟩ := hr.log.writeBuffer hlbas hw
    have hlog' : r₀.reinit.Log g := hlog.congr rfl rfl rfl
    have hnum : r₀.reinit.nowEntryNum + 1 = (xs ++ [lba]).length := by
      rw [List.length_append, ← hr.num]
      exact congrArg (· + 1) hnow
    unfold writeMetaOnAlert at hmeta
    split at hmeta
    · rename_i halert
      have hfull := hlog'.filling.alert.mp halert
      have hne : r₀.reinit.stBody.cur.page ≠ [] := by
        intro hnil
        have := g.maxSectorInBlock_pos
        rw [hnil, List.length_nil] at hfull
        omega
      rcases writeMeta_ok hmeta with ⟨hwf, -, -⟩ | ⟨-, q, a, b, -, rfl⟩
      · exact absurd (hlog'.filling.writing.symm.trans hwf) (by simpa using hne)
      · have hend : (r₀.reinit.finish q a b).Log g := (hlog'.finish_done hne).2.2 hfull
        refine ⟨⟨hend.congr rfl rfl rfl, g.maxSectorInBlock_pos, nofun, ?_, hnum⟩, hinfo⟩
        change (r₀.reinit.finish q a b).pairs.map (·.lba) ++ [] = _
        rw [List.append_nil, finish_pairs]
        apply hpairs.trans hitems
    · rename_i halert
      cases hmeta
      refine ⟨⟨hlog'.congr rfl rfl rfl, ?_, nofun, ?_, hnum⟩, hinfo⟩
      · apply lt_of_le_of_ne hlog'.filling.le
        apply mt hlog'.filling.alert.mpr halert
      · change r₀.pairs.map (·.lba) ++ [] = _
        rw [List.append_nil]
        apply hpairs.trans hitems
  · refine ⟨⟨hr.log.congr rfl rfl rfl, hr.lt, hlbas, hitems, ?_⟩, rfl⟩
    rw [List.length_append, ← hr.num]
    rfl

/-- The number of blocks for `n` sectors. -/
def blockNum (g : Geometry) (n : ℕ) : ℕ := (n + g.maxSectorInBlock - 1) / g.maxSectorInBlock

/-- The sectors in the buffer are written. -/
theorem Fills.flushBuffer (hr : r.Fills g xs) (h : r.flushBuffer g dev = .ok (r', dev')) :
  r'.Log g ∧ r'.pairs.map (·.lba) = xs ∧ r'.nowEntryNum = r.nowEntryNum ∧ r'.info = r.info
  := by
  have hlbas := hr.lbas
  unfold Run.flushBuffer at h
  split at h
  · rename_i hpp
    cases h
    rw [buffered, hpp] at hlbas
    exact ⟨hr.log, by simpa using hlbas, rfl, rfl⟩
  · rename_i pp hpp
    have hbuf : r.buffered = pp.items := by
      rw [buffered, hpp]
      rfl
    rw [hbuf] at hlbas
    split at h
    · rename_i hnil
      cases h
      rw [hnil] at hlbas
      exact ⟨hr.log, by simpa using hlbas, rfl, rfl⟩
    · rw [bind_eq_ok] at h
      obtain ⟨⟨r₀, dev₀⟩, hw, hret⟩ := h
      cases hret
      obtain ⟨hlog, hpairs, hnow, hinfo⟩ := hr.log.writeBuffer (hbuf ▸ hr.lba_le) hw
      refine ⟨hlog.congr rfl rfl rfl, ?_, hnow, hinfo⟩
      change r₀.pairs.map (·.lba) = xs
      rw [hpairs, hlbas]

/-- `run_insert_done` of a log: all blocks are closed, and all but the last one are full. -/
theorem Fills.insertDone (hr : r.Fills g xs) (h : r.insertDone g dev = .ok (r', dev')) :
  r'.LogDone g ∧ r'.pairs.map (·.lba) = xs ∧ r'.nowEntryNum = xs.length ∧
    r'.stBody.nowSteNum = blockNum g xs.length
  := by
  simp only [Run.insertDone, bind_eq_ok] at h
  obtain ⟨⟨r₁, dev₁⟩, hflush, ⟨r₂, dev₂⟩, hmeta, hret⟩ := h
  cases hret
  dsimp only at hmeta ⊢
  obtain ⟨hlog, hpairs, hnow, -⟩ := hr.flushBuffer hflush
  have hpos := g.maxSectorInBlock_pos
  have hlen : xs.length
      = r₁.stBody.stes.length * g.maxSectorInBlock + r₁.stBody.cur.page.length := by
    rw [← hlog.length_pairs, ← hpairs, List.length_map]
  have hle := hlog.filling.le
  rcases writeMeta_ok hmeta with ⟨hwf, -, rfl⟩ | ⟨hw, q, a, b, -, rfl⟩
  · have hnil : r₁.stBody.cur.page = [] := by simpa [hwf] using hlog.filling.writing
    refine ⟨⟨hlog.type, ⟨hlog.filling.inblock, hlog.filling.le, hlog.filling.alert,
      hlog.filling.writing, hlog.filling.cur, hlog.filling.own⟩, ?_, hnil, hlog.paged,
      hlog.asc, hlog.last⟩, hpairs, hnow.trans hr.num, ?_⟩
    · intro ste hste
      obtain ⟨hm, hfull, -, hflag⟩ := hlog.stes ste hste
      refine ⟨hm, ?_, hflag⟩
      rintro hpage
      rw [hpage, List.length_nil] at hfull
      omega
    · rw [hnil, List.length_nil, Nat.add_zero] at hlen
      change r₁.stBody.stes.length = _
      rw [blockNum, hlen, Nat.add_sub_assoc hpos, Nat.add_comm, Nat.add_mul_div_right _ _ hpos,
        Nat.div_eq_of_lt (by omega), Nat.zero_add]
  · have hne : r₁.stBody.cur.page ≠ [] := by simpa [hw] using hlog.filling.writing
    have hcur := List.length_pos_iff.mpr hne
    have hdone : (r₁.finish q a b).LogDone g := (hlog.finish_done hne).1
    refine ⟨⟨hdone.type, hdone.filling, hdone.stes, hdone.nil, hdone.paged, hdone.asc,
      hdone.last⟩, ?_, hnow.trans hr.num, ?_⟩
    · change (r₁.finish q a b).pairs.map (·.lba) = xs
      rw [finish_pairs, hpairs]
    · change (r₁.stBody.stes ++ [_]).length = _
      rw [List.length_append, List.length_singleton, blockNum, hlen]
      have hsplit : r₁.stBody.stes.length * g.maxSectorInBlock + r₁.stBody.cur.page.length
          + g.maxSectorInBlock - 1 = (r₁.stBody.cur.page.length - 1)
          + (r₁.stBody.stes.length + 1) * g.maxSectorInBlock := by
        rw [Nat.succ_mul]
        omega
      rw [hsplit, Nat.add_mul_div_right _ _ hpos, Nat.div_eq_of_lt (by omega), Nat.zero_add]

theorem fills_factory {mapType : MapType} {n idx : ℕ} :
  (Run.factory g mapType n .runLog idx : Run δ).Fills g []
  := by
  have hpos := g.maxSectorInBlock_pos
  refine ⟨⟨rfl, ⟨rfl, Nat.zero_le _, ?_, rfl, Ste.meta_empty g, rfl, rfl⟩, nofun, rfl, .nil, ?_⟩,
    hpos, nofun, rfl, rfl⟩
  · simp only [Run.factory, StArray.init, Ste.empty, List.length_nil, Bool.false_eq_true,
      false_iff]
    omega
  · intro x
    constructor
    · intro hx
      cases hx
    · rintro ⟨hx, -⟩
      cases hx

/-- The number of different lbas of a finished log is the number of pairs of its tree. -/
theorem LogDone.length_tree (hr : r.LogDone g) :
  r.runLogMf.length = (r.pairs.map (·.lba)).toFinset.card
  := by
  have hnodup : (r.runLogMf.map (·.1)).Nodup := by
    rw [List.Nodup, List.pairwise_map]
    apply hr.asc.imp
    intro a b hab
    apply Nat.ne_of_lt hab
  have hset : (r.runLogMf.map (·.1)).toFinset = (r.pairs.map (·.lba)).toFinset := by
    ext lba
    rw [List.mem_toFinset, List.mem_toFinset]
    constructor
    · intro h
      obtain ⟨x, hx, rfl⟩ := List.mem_map.mp h
      apply List.mem_of_getElem? ((hr.last x).mp hx).1
    · intro h
      obtain ⟨k, hk⟩ := exists_isLast h
      apply List.mem_map.mpr ⟨(lba, k), (hr.last (lba, k)).mpr hk, rfl⟩
  rw [← hset, List.toFinset_card_of_nodup hnodup, List.length_map]

end Run

end AppL
