import AppL.Lsm.Course

/-!
# What a merge hands over

When a merge can begin, and what it leaves: the lbas that the sources owned belong to the
target, the target counts its lbas, and the valid pieces are those of the target, those of the
other runs, and the summary pages that the sources still have.
-/

namespace AppL

open Transition

variable {δ : Type} {g : Geometry}

/-! ### What a merge leaves -/

namespace Merging

variable {moves : ℕ → Ste → Prop} {range : ℕ} {held : List ℕ} {dev₀ : Dev δ}
  {sc₀ : ShortcutMaster} {m m' : Merging δ}

theorem Step.infos (h : m.Step g moves m') :
  m'.srcs.map (·.1) = m.srcs.map (·.1)
  := by
  cases h with
  | skip hsrcs hold hdev =>
      rw [hsrcs, List.map_append, List.map_append]
      rfl
  | push hsrcs hnew hmin hdev =>
      rw [hsrcs]
      simp only [List.map_append, List.map_cons, List.map_map]
      rfl
  | flush hdev hres hsc => rfl
  | move hsrcs hsorted hmeta hne hcopied hflag hapart hsums hres hsc =>
      rw [hsrcs, List.map_append, List.map_append]
      rfl

theorem Step.target (hrange : range ≤ uint32Max) (hinv : m.Inv g range held dev₀)
    (h : m.Step g moves m') :
  m'.res.info = m.res.info
  := by
  cases h with
  | skip hsrcs hold hdev => rfl
  | push hsrcs hnew hmin hdev => rfl
  | flush hdev hres hsc =>
      obtain ⟨-, hgrow, -⟩ := hinv.flush hrange hdev hres m.sc
      apply hgrow.shape.info
  | move hsrcs hsorted hmeta hne hcopied hflag hapart hsums hres hsc =>
      obtain ⟨-, hgrow, -⟩ := Run.paddingCurrentBlock_grows hinv.opened hinv.holds hres
      apply hgrow.shape.info

theorem Steps.inv (hrange : range ≤ uint32Max) (hsteps : m.Steps g moves m')
    (hinv : m.Inv g range held dev₀) :
  m'.Inv g range held dev₀
  := by
  induction hsteps with
  | refl => apply hinv
  | tail _ hstep ih => apply hstep.inv hrange ih

/-- The run lemma of the steps. -/
theorem Steps.keeps (hrange : range ≤ uint32Max) (hsteps : m.Steps g moves m')
    (hinv : m.Inv g range held dev₀) (hlinked : m.Linked range sc₀) :
  m'.Inv g range held dev₀ ∧ m'.Linked range sc₀ ∧ m'.srcs.map (·.1) = m.srcs.map (·.1) ∧
    m'.res.info = m.res.info
  := by
  induction hsteps with
  | refl => exact ⟨hinv, hlinked, rfl, rfl⟩
  | tail _ hstep ih =>
      obtain ⟨hinv', hlinked', hinfos, htarget⟩ := ih
      exact ⟨hstep.inv hrange hinv', hstep.linked hrange hinv' hlinked',
        hstep.infos.trans hinfos, (hstep.target hrange hinv').trans htarget⟩

end Merging

/-- The infos differ in their flags only. -/
structure ShortcutMaster.SameBooks (sc sc' : ShortcutMaster) : Prop where
  scMap : sc'.scMap = sc.scMap
  freeQ : sc'.freeQ = sc.freeQ
  unlinked : ∀ i, (sc'.infoSet i).unlinkedLbaNum = (sc.infoSet i).unlinkedLbaNum
  inUse : ∀ i, (sc'.infoSet i).inUse = (sc.infoSet i).inUse

namespace ShortcutMaster

theorem SameBooks.total {sc sc' : ShortcutMaster} (h : sc.SameBooks sc') (range i : ℕ) :
  sc'.total range i = sc.total range i
  := by rw [ShortcutMaster.total, ShortcutMaster.total, owned, owned, h.scMap, h.unlinked]

theorem setCompactionFlag_sameBooks {α : Type} (f : α → ℕ) (flag : Bool) (l : List α) :
  ∀ sc : ShortcutMaster,
    sc.SameBooks (l.foldl (fun sc a => sc.setCompactionFlag (f a) flag) sc)
  := by
  induction l with
  | nil =>
      intro sc
      use rfl, rfl, fun _ => rfl, fun _ => rfl
  | cons a l ih =>
      intro sc
      obtain ⟨hmap, hfree, hun, huse⟩ := ih (sc.setCompactionFlag (f a) flag)
      have hupdate : ∀ i, ((sc.setCompactionFlag (f a) flag).infoSet i).unlinkedLbaNum
          = (sc.infoSet i).unlinkedLbaNum ∧
          ((sc.setCompactionFlag (f a) flag).infoSet i).inUse = (sc.infoSet i).inUse := by
        intro i
        simp only [setCompactionFlag, updateInfo, Function.update_apply]
        split
        · rename_i heq
          rw [heq]
          exact ⟨rfl, rfl⟩
        · exact ⟨rfl, rfl⟩
      exact ⟨hmap, hfree, fun i => (hun i).trans (hupdate i).1,
        fun i => (huse i).trans (hupdate i).2⟩

end ShortcutMaster

namespace Run

variable {r : Run δ} {mapType : MapType} {n idx : ℕ}

/-- The pieces that the run is the only one to have, when it is a source of a merge. -/
def mergePieces (g : Geometry) (r : Run δ) : List ℕ :=
  (r.mergeEntries g).map (·.psa) ++ r.ownSums

/-- A new normal run can be written to. -/
theorem factory_open :
  (Run.factory g mapType n .runNormal idx : Run δ).Open g
  := by
  have hpos := g.maxSectorInBlock_pos
  refine ⟨rfl, ⟨rfl, Nat.zero_le _, ?_, rfl, Ste.meta_empty g, rfl, rfl⟩, hpos, rfl,
    Nat.succ_pos 3, nofun, nofun⟩
  simp only [Run.factory, StArray.init, Ste.empty, List.length_nil, Bool.false_eq_true,
    false_iff]
  omega

/-- A normal run that is finished has the entries and the summary pages of its table. -/
theorem Finished.mergePieces (h : r.Finished g) (htype : r.type = .runNormal) :
  r.mergePieces g = r.psas ++ r.sums
  := by
  have hown : r.stBody.stes.filter (fun ste => ste.copied = false) = r.stBody.stes := by
    apply List.filter_eq_self.mpr
    intro ste hste
    apply decide_eq_true (h.stes ste hste).1.copied
  rw [Run.mergePieces, mergeEntries, htype, ownSums, hown]
  rfl

/-- The entries of a source ascend. -/
theorem mergeEntries_asc {rset : List (Run δ)} (hin : MergeInputs g rset)
    (hnone : NoneTwice rset) (hr : r ∈ rset) :
  (r.mergeEntries g).Pairwise fun a b => a.lba < b.lba
  := by
  rcases hin with hnormal | ⟨r', hset, hlog⟩
  · obtain ⟨htype, hranged, hfin⟩ := hnormal r hr
    rw [mergeEntries, htype]
    apply (hfin.done htype hranged (hnone r hr htype)).asc
  · rw [hset, List.mem_singleton] at hr
    rw [hr, mergeEntries, hlog.done.type]
    exact List.pairwise_map.mpr hlog.done.asc

end Run

/-- A merge of the sources into a new run with info `idx`, while others have the pieces
`held`, can begin. -/
structure Mergeable (g : Geometry) (range : ℕ) (held : List ℕ) (rset : List (Run δ)) (idx : ℕ)
    (sc : ShortcutMaster) (dev : Dev δ) : Prop where
  inputs : MergeInputs g rset
  none : NoneTwice rset
  once : MovesOnce rset
  lt : ∀ r ∈ rset, ∀ e ∈ r.mergeEntries g, e.lba < range
  holds : dev.Holds (rset.flatMap (Run.mergePieces g) ++ held)
  balanced : dev.Balanced g
  fresh : idx ∉ rset.map (·.info)
  owned : ∀ r ∈ rset, ∀ lba, sc.scMap lba = some r.info →
    lba ∈ (r.mergeEntries g).map (·.lba)
  unused : ∀ lba, sc.scMap lba ≠ some idx
  zero : (sc.infoSet idx).unlinkedLbaNum = 0

/-- What a merge has left: the target has all lbas that the sources owned, and the sources
have only those summary pages that were not moved. -/
structure Merged (g : Geometry) (range : ℕ) (held : List ℕ) (rset : List (Run δ)) (idx : ℕ)
    (sc : ShortcutMaster) (dev : Dev δ) (st : MergeState δ) : Prop where
  type : st.res.type = .runNormal
  info : st.res.info = idx
  ranged : StArray.Ranged st.res.stBody.stes
  finished : st.res.Finished g
  asc : st.res.entries.Pairwise fun a b => a.lba < b.lba
  lt : ∀ e ∈ st.res.entries, e.lba < range
  infos : st.mms.map (·.r.info) = rset.map (·.info)
  holds : st.dev.Holds (st.res.mergePieces g ++ (st.mms.flatMap (fun mm => mm.r.ownSums) ++ held))
  balanced : st.dev.Balanced g
  data : ∀ q ∈ held, st.dev.data q = dev.data q
  owner : ∀ lba i, st.sc.scMap lba = some i →
    (i = idx ∧ lba ∈ st.res.entries.map (·.lba)) ∨
      i ≠ idx ∧ i ∉ rset.map (·.info) ∧ sc.scMap lba = some i
  assigned : ∀ lba, sc.scMap lba ≠ Option.none → st.sc.scMap lba ≠ Option.none
  total : ∀ i, i ≠ idx → st.sc.total range i = sc.total range i
  count : st.res.nowEntryNum = st.sc.total range idx
  inUse : ∀ i, (st.sc.infoSet i).inUse = (sc.infoSet i).inUse
  freeQ : st.sc.freeQ = sc.freeQ

namespace Mergeable

variable {range : ℕ} {held : List ℕ} {rset : List (Run δ)} {idx : ℕ} {sc : ShortcutMaster}
  {dev : Dev δ} {mapType : MapType} {n : ℕ}

theorem beginning_inv (h : Mergeable g range held rset idx sc dev) :
  (Merging.beginning g rset (Run.factory g mapType n .runNormal idx) sc dev).Inv g range held
    dev
  := by
  refine ⟨Run.factory_open, ?_, nofun, ?_, .nil, nofun, ?_, h.balanced, fun _ _ => rfl⟩
  · intro x hx
    obtain ⟨r, hr, rfl⟩ := List.mem_map.mp hx
    apply h.lt r hr
  · intro x hx
    obtain ⟨r, hr, rfl⟩ := List.mem_map.mp hx
    apply Run.mergeEntries_asc h.inputs h.none hr
  · apply h.holds.perm
    have hleft : Merging.left (rset.map fun r => (r.info, r.mergeEntries g))
        = rset.flatMap fun r => (r.mergeEntries g).map (·.psa) := by
      rw [Merging.left, List.flatMap_map]
    change (rset.flatMap (Run.mergePieces g) ++ held).Perm
      (Merging.left (rset.map fun r => (r.info, r.mergeEntries g)) ++
        (rset.flatMap Run.ownSums ++ held))
    rw [hleft, ← List.append_assoc]
    apply List.Perm.append_right
    apply (List.flatMap_append_perm rset _ _).symm

theorem beginning_linked (h : Mergeable g range held rset idx sc dev) :
  (Merging.beginning g rset (Run.factory g mapType n .runNormal idx) sc dev).Linked range
    (rset.foldl (fun sc r => sc.setCompactionFlag r.info true) sc)
  := by
  have hbooks := ShortcutMaster.setCompactionFlag_sameBooks (fun r : Run δ => r.info) true rset sc
  have hmap : (rset.foldl (fun sc r => sc.setCompactionFlag r.info true) sc).scMap = sc.scMap :=
    hbooks.scMap
  refine ⟨?_, ?_, ?_, fun _ _ h => .inr h, fun _ h => h, fun _ _ => rfl, ?_,
    fun _ => ScInfo.SameRank.refl _, rfl, rfl⟩
  · change idx ∉ (rset.map fun r => (r.info, r.mergeEntries g)).map (·.1)
    rw [List.map_map]
    apply h.fresh
  · intro x hx lba hlba
    obtain ⟨r, hr, rfl⟩ := List.mem_map.mp hx
    left
    exact h.owned r hr lba (hmap ▸ hlba)
  · intro lba hlba
    exact absurd (hmap ▸ hlba) (h.unused lba)
  · change 0 = ShortcutMaster.total (rset.foldl (fun sc r => sc.setCompactionFlag r.info true) sc)
      range idx
    rw [hbooks.total, ShortcutMaster.total, h.zero, ShortcutMaster.owned,
      Finset.filter_eq_empty_iff.mpr fun _ _ => h.unused _]
    rfl

/-- `run_merge` does what a merge is for. -/
theorem runMerge {force : Bool} {st : MergeState δ}
    (h : Mergeable g range held rset idx sc dev) (hrange : range ≤ uint32Max)
    (hok : runMerge g rset (Run.factory g mapType n .runNormal idx) force sc dev = .ok st) :
  Merged g range held rset idx sc dev st
  := by
  obtain ⟨htype, hranged, hfin⟩ := runMerge_finished h.inputs h.none hok
  obtain ⟨m, hsteps, hsorted, hend, hinfos, hsums, hdone, hsc⟩ :=
    runMerge_steps h.inputs h.none h.once hok
  obtain ⟨hinv, hlinked, hsame, hinfo⟩ := Merging.Steps.keeps hrange hsteps h.beginning_inv
    h.beginning_linked
  have hnil : Merging.left m.srcs = [] := by
    rw [Merging.left, List.flatMap_eq_nil_iff]
    intro x hx
    rw [hend x hx]
    rfl
  have hinfos' : st.mms.map (·.r.info) = rset.map (·.info) := by
    rw [← hinfos, hsame, Merging.beginning, List.map_map]
    rfl
  obtain ⟨-, hgrow, hcur, hpp, hnum⟩ := Run.insertDone_grows hinv.opened hinv.holds hdone
  change m.res.info = idx at hinfo
  have hlbas : st.res.entries.map (·.lba) = m.res.lbas := by
    have hl := hgrow.lbas
    rw [List.map_nil, List.append_nil, Run.lbas, Run.buffered, hpp] at hl
    simpa using hl
  have hout : m.out = m.res.lbas := by
    rw [Merging.out, hsorted, List.map_nil, List.append_nil]
  have hflags := ShortcutMaster.setCompactionFlag_sameBooks (fun mm : Mm δ => mm.r.info) false
    st.mms m.sc
  rw [← hsc] at hflags
  have hraised := ShortcutMaster.setCompactionFlag_sameBooks (fun r : Run δ => r.info) true
    rset sc
  refine ⟨htype, ?_, hranged, hfin, ?_, ?_, hinfos', ?_, ?_, ?_, ?_, ?_, ?_, ?_, ?_, ?_⟩
  · rw [hgrow.shape.info, hinfo]
  · rw [← List.pairwise_map (f := fun e : Entry => e.lba) (R := (· < ·)), hlbas, ← hout]
    apply hinv.out_asc
  · intro e he
    apply hinv.out_lt
    rw [hout, ← hlbas]
    apply List.mem_map_of_mem he
  · rw [hfin.mergePieces htype, ← hsums]
    apply hgrow.holds.perm
    rw [Merging.rest, hnil, hsorted]
    apply List.Perm.refl _
  · apply hgrow.balanced hinv.balanced
  · intro q hq
    rw [hgrow.data q (by simp [Merging.rest, hq]), hinv.data q hq]
  · intro lba i hi
    rw [hflags.scMap] at hi
    by_cases heq : i = idx
    · left
      rw [hlbas]
      use heq, hlinked.res_owned lba (hi.trans (by rw [heq, hinfo]))
    · right
      refine ⟨heq, ?_, ?_⟩
      · rw [← hinfos', ← hinfos]
        intro hmem
        obtain ⟨x, hx, rfl⟩ := List.mem_map.mp hmem
        rcases hlinked.owned x hx lba hi with hin | hin
        · rw [hend x hx] at hin
          cases hin
        · rw [hsorted] at hin
          cases hin
      · rw [← hraised.scMap]
        apply (hlinked.old lba i hi).resolve_left fun h => heq (h.trans hinfo)
  · intro lba hlba
    rw [hflags.scMap]
    apply hlinked.assigned
    rw [hraised.scMap]
    apply hlba
  · intro i hi
    rw [hflags.total, hlinked.total i (hinfo ▸ hi), hraised.total]
  · rw [hnum, hlinked.count, hflags.total, hinfo]
  · intro i
    rw [hflags.inUse, (hlinked.rank i).inUse, hraised.inUse]
  · rw [hflags.freeQ, hlinked.freeQ, hraised.freeQ]

end Mergeable

end AppL
