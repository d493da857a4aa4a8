import AppL.Lsm.Termination

/-!
# The course of a merge

When no block that is moved has an lba twice, a block that `trivial_move` takes stands for the
entries that its source is at.  Then a whole run of `run_merge` is a sequence of steps of the
transition system of `Merging`, from the state in which the sources have all their entries to
one in which nothing is left.
-/

namespace AppL

open Transition

variable {δ : Type} {g : Geometry}

/-! ### The entries of a block -/

/-- Lists whose lbas ascend are the same when they have the same entries. -/
theorem eq_of_ascending {l l' : List Entry} (h : l.Pairwise fun a b => a.lba < b.lba)
    (h' : l'.Pairwise fun a b => a.lba < b.lba) (hmem : ∀ e, e ∈ l ↔ e ∈ l') :
  l = l'
  := by
  have hnodup : ∀ {l : List Entry}, (l.Pairwise fun a b => a.lba < b.lba) → l.Nodup := by
    intro l hl
    apply hl.imp
    rintro a b hab rfl
    apply Nat.lt_irrefl _ hab
  apply List.Perm.eq_of_pairwise _ h h'
  · apply (List.perm_ext_iff_of_nodup (hnodup h) (hnodup h')).mpr hmem
  · intro a b _ _ hab hba
    exact absurd hab (Nat.lt_asymm hba)

/-- The entries of a sorted block without a repeated lba ascend. -/
theorem Ste.Meta.asc {ste : Ste} (h : ste.Meta g) (hsorted : ste.sorted = true)
    (hnodup : ste.lbas.Nodup) :
  ste.entries.Pairwise fun a b => a.lba < b.lba
  := by
  have hle := h.sorted hsorted
  rw [← List.isChain_map SummaryPair.lba, List.isChain_iff_pairwise, List.pairwise_map] at hle
  rw [Ste.entries, List.pairwise_map]
  apply (hle.and (List.pairwise_map.mp hnodup)).imp
  intro a b hab
  apply lt_of_le_of_ne hab.1 hab.2

theorem Ste.Meta.covers_entry {ste : Ste} (h : ste.Meta g) {e : Entry} (he : e ∈ ste.entries) :
  ste.Covers e.lba
  := by
  obtain ⟨p, hp, rfl⟩ := List.mem_map.mp he
  apply h.covers hp

/-- Of a block of a log that no other one meets, the tree has all the entries. -/
theorem Run.LogDone.mem_entries {r : Run δ} {s : Ste} {j : ℕ} (h : r.LogDone g)
    (hs : r.stBody.stes[j]? = some s) (hnodup : s.lbas.Nodup)
    (huniq : ∀ k s' lba, r.stBody.stes[k]? = some s' → s'.Covers lba → s.Covers lba → k = j)
    (e : Entry) :
  e ∈ s.entries ↔ e ∈ r.treeEntries g ∧ s.Covers e.lba
  := by
  obtain ⟨hmeta, -, hflag⟩ := h.stes s (List.mem_of_getElem? hs)
  have hpage : ∀ x ∈ r.runLogMf, s.Covers x.1 → ∃ p ∈ s.page, p.lba = x.1 ∧
      p.piecePpa = r.stBody.convertGlobalOffsetToPsa g x.2 := by
    intro x hx hcov
    obtain ⟨p, hp, hlba⟩ := h.pair_of_mem hx
    obtain ⟨hlt, hcov'⟩ := h.covers hx
    have hget := List.getElem?_eq_getElem hlt
    rw [Mm.steAt_of_getElem? hget] at hcov'
    have hj := huniq _ _ _ hget hcov' hcov
    obtain ⟨ste, hste, hin⟩ := h.paged _ p hp
    rw [List.getElem?_append_left hlt, hj, hs] at hste
    cases hste
    use p, List.mem_of_getElem? hin, hlba, (h.convert hp).symm
  have horig : s.orig = none := by
    rw [Ste.orig, hflag]
    rfl
  rw [Run.treeEntries, List.mem_map]
  constructor
  · intro he
    obtain ⟨p, hp, rfl⟩ := List.mem_map.mp he
    obtain ⟨x, hx, hlba⟩ := h.exists_mem_tree (List.mem_of_getElem? hs) hp
    have hcov := hmeta.covers hp
    obtain ⟨q, hq, hqlba, hpiece⟩ := hpage x hx (hlba ▸ hcov)
    have hpq : p = q := List.inj_on_of_nodup_map hnodup hp hq (hlba.symm.trans hqlba.symm)
    refine ⟨⟨x, hx, ?_⟩, hcov⟩
    rw [horig, hlba, hpq, hpiece]
  · rintro ⟨⟨x, hx, rfl⟩, hcov⟩
    obtain ⟨p, hp, hlba, hpiece⟩ := hpage x hx hcov
    refine List.mem_map.mpr ⟨p, hp, ?_⟩
    rw [horig, hlba, hpiece]

/-- A source at the first lba of a sorted block, which no other one meets, has the entries of
this block before all others. -/
theorem Mm.Reading.block_entries {mm : Mm δ} {s : Ste} {j : ℕ} {e : Entry} {l : List Entry}
    (h : mm.Reading g) (hl : mm.left g = e :: l) (hs : mm.r.stBody.stes[j]? = some s)
    (hstart : s.startLba = e.lba) (hsorted : s.sorted = true) (hnodup : s.lbas.Nodup)
    (huniq : ∀ k s' lba, mm.r.stBody.stes[k]? = some s' → s'.Covers lba → s.Covers lba →
      k = j) :
  (mm.left g).filter (fun e => e.lba ≤ s.endLba) = s.entries
  := by
  obtain ⟨hmeta, hne⟩ := h.reads.meta (List.mem_of_getElem? hs)
  have hasc := hmeta.asc hsorted hnodup
  have hleft_asc : ((mm.left g).filter fun e => e.lba ≤ s.endLba).Pairwise
      fun a b => a.lba < b.lba := h.asc.sublist List.filter_sublist
  have hge : ∀ e' ∈ mm.left g, s.startLba ≤ e'.lba := by
    intro e' he'
    have hpair := h.asc
    rw [hl] at he' hpair
    rw [hstart]
    rcases List.mem_cons.mp he' with rfl | he'
    · apply Nat.le_refl _
    · apply Nat.le_of_lt ((List.pairwise_cons.mp hpair).1 e' he')
  apply eq_of_ascending hleft_asc hasc
  intro e'
  rw [List.mem_filter, decide_eq_true_eq]
  rcases h.reads with hr | hr
  · cases hp : mm.ssi.pages with
    | nil => simp [Mm.left, hr.type, hp] at hl
    | cons page after =>
        obtain ⟨ste, pre, hste, hpage, hpne, -, hleft⟩ := hr.left_cons hp
        have hcov : s.Covers e.lba := by
          rw [← hstart]
          use Nat.le_refl _, hmeta.start_le_end hne
        obtain rfl := huniq _ _ _ hste (hr.covers hl hste) hcov
        cases hs.symm.trans hste
        have hpre : pre = [] := by
          by_contra hpre
          obtain ⟨q, qs, rfl⟩ := List.exists_cons_of_ne_nil hpre
          obtain ⟨p, ps, rfl⟩ := List.exists_cons_of_ne_nil hpne
          have hfirst := hleft.symm.trans hl
          rw [Mm.pageEntries, List.map_cons, List.cons_append] at hfirst
          cases hfirst
          rw [Ste.entries, List.pairwise_map, hpage, List.pairwise_append] at hasc
          have hlt := hasc.2.2 q List.mem_cons_self p List.mem_cons_self
          have hle := hmeta.start_le q (hpage ▸ List.mem_append_left _ List.mem_cons_self)
          dsimp only at hlt hstart
          omega
        have hentries : Mm.pageEntries s.orig page = s.entries := by
          rw [Ste.entries, hpage, hpre]
          rfl
        rw [hentries] at hleft
        have hpair := h.asc
        rw [hleft, List.pairwise_append] at hpair
        rw [hleft, List.mem_append]
        constructor
        · rintro ⟨he' | he', hle⟩
          · apply he'
          · obtain ⟨q, hq, hend⟩ := hmeta.end_mem hne
            have hlt := hpair.2.2 _ (List.mem_map_of_mem hq) e' he'
            dsimp only at hlt
            omega
        · intro he'
          use .inl he', (hmeta.covers_entry he').2
  · rw [hr.run.mem_entries hs hnodup huniq]
    obtain ⟨pre, hpre⟩ := hr.tree
    have htree : mm.r.treeEntries g = pre.map (fun x => (⟨x.1,
        mm.r.stBody.convertGlobalOffsetToPsa g x.2, none⟩ : Entry)) ++ mm.left g := by
      rw [Run.treeEntries, hpre, List.map_append, Mm.left, hr.type]
    rw [htree, List.mem_append]
    constructor
    · rintro ⟨he', hle⟩
      use .inr he', hge e' he', hle
    · rintro ⟨he' | he', hcov⟩
      · obtain ⟨x, hx, rfl⟩ := List.mem_map.mp he'
        obtain ⟨y, t, ht⟩ : ∃ y t, mm.ssi.tree = y :: t := by
          apply List.exists_cons_of_ne_nil
          intro ht
          simp [Mm.left, hr.type, ht] at hl
        have hpair := hr.run.asc
        rw [hpre, ht, TreeMap.Asc, List.pairwise_append] at hpair
        have hlt := hpair.2.2 x hx y List.mem_cons_self
        simp only [Mm.left, hr.type, ht, List.map_cons, List.cons.injEq] at hl
        have hcov' := hcov.1
        rw [hstart, ← hl.1] at hcov'
        dsimp only at hcov'
        omega
      · use he', hcov.2

/-! ### Moving a block -/

/-- The blocks that a merge may move: none when it is forced. -/
def mayMoves (force : Bool) (blocks : List (RunType × List Ste)) (i : ℕ) (ste : Ste) : Prop :=
  force = false ∧ ∃ j, Movable blocks i j ste.core

/-- The summary page of a block that is left belongs to the target. -/
theorem Run.ownSums_leftRun {r : Run δ} {s : Ste} {j : ℕ} (hs : r.stBody.stes[j]? = some s)
    (hcopied : s.copied = false) :
  r.ownSums.Perm (s.piecePpa :: (Mm.leftRun r j).ownSums)
  := by
  obtain ⟨l, l', hstes, hlen, hset⟩ := MergeState.split_at hs
  have hleft : (Mm.leftRun r j).stBody.stes = l ++ MergeState.leftSte s :: l' := by
    rw [Mm.leftRun, StArray.modifySte, ← hset, List.modify_eq_set_getElem?, hs]
    rfl
  rw [Run.ownSums, Run.ownSums, hleft, hstes, List.filter_append, List.filter_append,
    List.filter_cons_of_pos (by simp [hcopied]),
    List.filter_cons_of_neg (by simp [MergeState.leftSte]), List.map_append, List.map_append,
    List.map_cons]
  apply List.perm_middle

namespace MergeState

variable {st st' : MergeState δ} {m m' : Merging δ} {blocks : List (RunType × List Ste)}

/-- `trivial_move` of a block without a repeated lba is a step of the merge. -/
theorem trivialMove_step {ridx j : ℕ} {mm : Mm δ} {p : Picked} {ste : Ste}
    (h : Sim g blocks st m) (hsorted : m.sorted = [])
    (hat : AtBlock g blocks st ridx j mm p ste) (hnodup : ste.lbas.Nodup)
    (hok : st.trivialMove g ridx = .ok st') :
  m.Step g (mayMoves false blocks) (flushed g st') ∧ Sim g blocks st' (flushed g st')
  := by
  have hget := hat.picks.get
  have hread := h.mms mm (List.mem_of_getElem? hget)
  obtain ⟨s, es, l, valid, res, dev, mm₁, ssi, mf, sc, hblock, hcore, hstart, hpad, hrun, hl,
    hvalid, hlink, rfl, hsim⟩ := trivialMove_block h hsorted hat hok
  subst hcore
  refine ⟨?_, hsim⟩
  obtain ⟨hmeta, hne⟩ := hread.reads.meta (List.mem_of_getElem? hblock.get)
  have hes : es = s.entries := by
    obtain ⟨e, l₀, hfirst, hlba⟩ := left_cons_of_pick hread.reads hat.picks.pick
    have hfilter := hread.block_entries hfirst hblock.get (hstart.trans hlba)
      hat.movable.sorted hnodup (by
        intro k s' lba hk hcov' hcov
        exact (Movable.unique h hget hat.movable hk hcov' hcov).2)
    rw [← hfilter, hblock.left, List.filter_append, List.filter_eq_self.mpr,
      List.filter_eq_nil_iff.mpr, List.append_nil]
    · intro e he
      simpa using hblock.above e he
    · intro e he
      simpa using hblock.le e he
  subst hes
  obtain ⟨ms, ms', heq, hlen, hset⟩ := split_at hget
  have hsrcs : m.srcs = ms.map (fun x => (x.r.info, x.left g)) ++
      (mm.r.info, s.entries ++ l) :: ms'.map fun x => (x.r.info, x.left g) := by
    rw [h.srcs, heq, List.map_append, List.map_cons, hblock.left]
  have hsums : m.sums.Perm (s.piecePpa ::
      (st.mms.set ridx (leave mm₁ j ssi)).flatMap fun x => x.r.ownSums) := by
    have hown := Run.ownSums_leftRun hblock.get hblock.copied
    have hleave : (leave mm₁ j ssi).r = Mm.leftRun mm.r j := by
      rw [← hrun]
      rfl
    rw [h.sums, hset, heq, List.flatMap_append, List.flatMap_append, List.flatMap_cons,
      List.flatMap_cons, hleave]
    refine List.Perm.trans ((hown.append_right _).append_left _) ?_
    apply List.perm_middle
  have hstep := @Merging.Step.move δ g (mayMoves false blocks) m _ _ _ _ _ _ _ sc _ mf hsrcs
    hsorted hmeta hne hblock.copied hat.movable.flag ?_ hsums (h.res ▸ h.dev ▸ hpad) ?_ ?_
  · have hfinal : flushed g { st with
        mms := st.mms.set ridx (leave mm₁ j ssi)
        res := res.takeSte (taken st.sc mm.r.info (valid.length != s.entries.length) mf s)
          s.entries.length
        sc := sc
        dev := dev } = { m with
        srcs := ms.map (fun x => (x.r.info, x.left g)) ++
          (mm.r.info, l) :: ms'.map fun x => (x.r.info, x.left g)
        sums := (st.mms.set ridx (leave mm₁ j ssi)).flatMap fun x => x.r.ownSums
        res := res.takeSte (Merging.moved m.sc mm.r.info s mf) s.entries.length
        sc := sc
        dev := dev } := by
      have hinfo : (leave mm₁ j ssi).r.info = mm.r.info := by
        rw [← hrun]
        rfl
      rw [flushed, hset, List.map_append, List.map_cons, hinfo, hl, hsorted, Merging.moved,
        Merging.validLbas, h.sc, ← hvalid]
      rfl
    rw [hfinal]
    apply hstep
  · intro x hx e he
    rw [← List.map_append] at hx
    obtain ⟨y, hy, rfl⟩ := List.mem_map.mp hx
    obtain ⟨k, hkr, hk⟩ : ∃ k, k ≠ ridx ∧ st.mms[k]? = some y := by
      rcases List.mem_append.mp hy with hy | hy
      · obtain ⟨k, hk⟩ := List.mem_iff_getElem?.mp hy
        have hlt := (List.getElem?_eq_some_iff.mp hk).1
        use k, by omega
        rw [heq, List.getElem?_append_left hlt, hk]
      · obtain ⟨k, hk⟩ := List.mem_iff_getElem?.mp hy
        use ridx + 1 + k, by omega
        rw [heq, List.getElem?_append_right (by omega), ← hk, ← hlen, Nat.add_assoc,
          Nat.add_sub_cancel_left, Nat.add_comm 1 k, List.getElem?_cons_succ]
    apply hblock.others k y hk hkr e he
  · rw [Merging.validLbas, h.sc, ← hvalid]
    apply hlink
  · rw [List.length_map, hlen]
    exact ⟨rfl, j, hat.movable⟩

/-! ### The rounds -/

/-- A forced merge moves no block. -/
theorem sortingMmSet_force {targetRound : ℕ} (fuel : ℕ) :
  ∀ {st : MergeState δ} {prev : Option ℕ} {x : Option ℕ × MergeState δ},
    sortingMmSet g targetRound false fuel prev st = .ok x → x.1 = none
  := by
  induction fuel with
  | zero =>
      intro st prev x hok
      cases hok
  | succ fuel ih =>
      intro st prev x hok
      unfold sortingMmSet at hok
      split at hok
      · cases hok
        rfl
      · rw [bind_eq_ok] at hok
        obtain ⟨⟨picked, st₁⟩, -, hok⟩ := hok
        cases picked with
        | none => apply ih hok
        | some y =>
            simp only [Bool.false_and, Bool.false_eq_true, if_false, bind_eq_ok] at hok
            obtain ⟨-, -, st₂, -, hrest⟩ := hok
            apply ih hrest

theorem round_steps {targetRound : ℕ} {force : Bool} (h : Sim g blocks st m)
    (hnodup : ∀ i j ste, Movable blocks i j ste → ste.lbas.Nodup)
    (hok : st.round g targetRound force = .ok st') :
  ∃ m', m.Steps g (mayMoves force blocks) m' ∧ Sim g blocks st' m' ∧ m'.sorted = []
  := by
  simp only [round, bind_eq_ok] at hok
  obtain ⟨⟨target, st₁⟩, hsort, st₂, hflush, hok⟩ := hok
  obtain ⟨m₁, hsteps₁, hsim₁, hat⟩ := sortingMmSet_ok _ _ h hsort
  obtain ⟨m₂, hsteps₂, hsim₂, hsorted, hmms⟩ := flushSorted_ok _ hsim₁ hflush
  cases target with
  | none =>
      cases hok
      use m₂, hsteps₁.trans hsteps₂, hsim₂, hsorted
  | some ridx =>
      have hforce : force = false := by
        cases force with
        | true => cases sortingMmSet_force _ hsort
        | false => rfl
      subst hforce
      obtain ⟨j, mm, p, ste, hat⟩ := hat ridx rfl
      have hat₂ : AtBlock g blocks st₂ ridx j mm p ste :=
        ⟨⟨hmms ▸ hat.picks.get, hat.picks.pick, hmms ▸ hat.picks.min⟩, hat.flag, hat.movable,
          hat.start⟩
      obtain ⟨hstep, hsim⟩ := trivialMove_step hsim₂ hsorted hat₂
        (hnodup ridx j ste hat.movable) hok
      exact ⟨_, (hsteps₁.trans hsteps₂).tail hstep, hsim, rfl⟩

/-- The rounds go on until nothing is left in the sources. -/
theorem rounds_steps {step : ℕ} {force : Bool}
    (hnodup : ∀ i j ste, Movable blocks i j ste → ste.lbas.Nodup) (fuel : ℕ) :
  ∀ {targetRound : ℕ} {st : MergeState δ} {m : Merging δ}, Sim g blocks st m →
    rounds g step force fuel targetRound st = .ok st' →
    ∃ m', m.Steps g (mayMoves force blocks) m' ∧ Sim g blocks st' m' ∧ m'.sorted = [] ∧
      ∀ x ∈ m'.srcs, x.2 = []
  := by
  induction fuel with
  | zero =>
      intro targetRound st m _ hok
      cases hok
  | succ fuel ih =>
      intro targetRound st m h hok
      simp only [rounds, bind_eq_ok] at hok
      obtain ⟨st₁, hround, hok⟩ := hok
      obtain ⟨m₁, hsteps, h₁, hsorted⟩ := round_steps h hnodup hround
      split at hok
      · rename_i hdone
        cases hok
        use m₁, hsteps, h₁, hsorted
        intro x hx
        rw [h₁.srcs] at hx
        obtain ⟨mm, hmm, rfl⟩ := List.mem_map.mp hx
        apply (h₁.mms mm hmm).done (List.all_eq_true.mp hdone mm hmm)
      · obtain ⟨m', hsteps', h', hend⟩ := ih h₁ hok
        exact ⟨m', hsteps.trans hsteps', h', hend⟩

end MergeState

/-! ### The merge -/

/-- A merge of the runs at its beginning. -/
def Merging.beginning (g : Geometry) (rset : List (Run δ)) (target : Run δ)
    (sc : ShortcutMaster) (dev : Dev δ) : Merging δ where
  srcs := rset.map fun r => (r.info, r.mergeEntries g)
  sorted := []
  sums := rset.flatMap Run.ownSums
  res := target
  sc := rset.foldl (fun sc r => sc.setCompactionFlag r.info true) sc
  dev := dev

/-- No block that may be moved has an lba twice. -/
def MovesOnce (rset : List (Run δ)) : Prop :=
  ∀ i j r ste, MayMove rset i j → rset[i]? = some r → r.stBody.stes[j]? = some ste →
    ste.lbas.Nodup

theorem MovesOnce.movable {rset : List (Run δ)} (h : MovesOnce rset) {i j : ℕ} {ste : Ste}
    (hmov : Movable (blocksOf rset) i j ste) :
  ste.lbas.Nodup
  := by
  obtain ⟨⟨r, s, hr, hs, rfl⟩, hmay⟩ := hmov.mayMove
  apply h i j r s hmay hr hs

/-- The merge begins with all entries of the sources. -/
theorem start_eq {rset : List (Run δ)} {target : Run δ} {force : Bool} {sc : ShortcutMaster}
    {dev : Dev δ} {st : MergeState δ} (hin : MergeInputs g rset)
    (hok : MergeState.start rset target force sc dev = .ok st) :
  MergeState.flushed g st = Merging.beginning g rset target sc dev
  := by
  simp only [MergeState.start, bind_eq_ok] at hok
  obtain ⟨mms, hmms, hret⟩ := hok
  cases hret
  have hall := mapM_eq_ok hmms
  have hmap : ∀ {α : Type} (f : Mm δ → α) (f' : Run δ → α),
      (∀ mm : Mm δ, ∀ r ∈ rset, mm.r = r → mm.left g = r.mergeEntries g → f mm = f' r) →
      mms.map f = rset.map f' := by
    intro α f f' hf
    apply List.ext_getElem?
    intro i
    rw [List.getElem?_map, List.getElem?_map]
    cases hi : mms[i]? with
    | some mm =>
        obtain ⟨x, hx, hmm⟩ := MergeState.forall₂_getElem? hall hi
        rw [List.getElem?_zipIdx] at hx
        obtain ⟨r, hr, rfl⟩ := Option.map_eq_some_iff.mp hx
        have hmem := List.mem_of_getElem? hr
        obtain ⟨hrun, hleft⟩ := makeMm_left hin hmem hmm
        rw [hr]
        exact congrArg some (hf mm r hmem hrun hleft)
    | none =>
        have hlen := hall.length_eq
        rw [List.length_zipIdx] at hlen
        rw [List.getElem?_eq_none_iff, ← hlen] at hi
        rw [List.getElem?_eq_none hi]
        rfl
  have hsrcs : mms.map (fun mm => (mm.r.info, mm.left g))
      = rset.map fun r => (r.info, r.mergeEntries g) := by
    apply hmap
    rintro mm r _ rfl hleft
    rw [hleft]
  have hsums : mms.map (fun mm => mm.r.ownSums) = rset.map Run.ownSums := by
    apply hmap
    rintro mm r _ rfl _
    rfl
  rw [MergeState.flushed, Merging.beginning]
  congr 1
  rw [List.flatMap_def, List.flatMap_def, hsums]

/-- A run of `run_merge` is a sequence of steps after which nothing is left in the sources;
then the target is finished. -/
theorem runMerge_steps {rset : List (Run δ)} {mapType : MapType} {n idx : ℕ} {force : Bool}
    {sc : ShortcutMaster} {dev : Dev δ} {st : MergeState δ} (hin : MergeInputs g rset)
    (hnone : NoneTwice rset) (honce : MovesOnce rset)
    (hok : runMerge g rset (Run.factory g mapType n .runNormal idx) force sc dev = .ok st) :
  ∃ m, (Merging.beginning g rset (Run.factory g mapType n .runNormal idx) sc dev).Steps g
      (mayMoves force (blocksOf rset)) m ∧
    m.sorted = [] ∧ (∀ x ∈ m.srcs, x.2 = []) ∧
    m.srcs.map (·.1) = st.mms.map (·.r.info) ∧
    m.sums = st.mms.flatMap (fun mm => mm.r.ownSums) ∧
    m.res.insertDone g m.dev = .ok (st.res, st.dev) ∧
    st.sc = st.mms.foldl (fun sc mm => sc.setCompactionFlag mm.r.info false) m.sc
  := by
  simp only [runMerge, bind_eq_ok] at hok
  obtain ⟨st₀, hstart, st₁, hrounds, ⟨res, dev'⟩, hdone, hret⟩ := hok
  cases hret
  obtain ⟨hsim, -⟩ := MergeState.start_ordered hin hnone hstart
  rw [start_eq hin hstart] at hsim
  obtain ⟨m, hsteps, hsim', hsorted, hend⟩ :=
    MergeState.rounds_steps (fun _ _ _ => honce.movable) _ hsim hrounds
  refine ⟨m, hsteps, hsorted, hend, ?_, hsim'.sums, ?_, ?_⟩
  · rw [hsim'.srcs, List.map_map]
    rfl
  · rw [hsim'.res, hsim'.dev]
    apply hdone
  · rw [hsim'.sc]

end AppL
