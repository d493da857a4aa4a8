import AppL.Lsm.Disjoint
import AppL.Lsm.Lsmtree

/-!
# The divisions of an iterator over the memtable

An iterator over the tree of a memtable counts the pairs it has gone past, and divides by the
number of pairs for each entry of the sorted table.  This number is zero when the memtable has
fewer lbas than entries.
-/

namespace AppL

open Transition

variable {δ : Type} {g : Geometry} {E : Abort → Prop}

/-- A failure of the loops of a merge.  The other failures are those of the device, and of the
run and the tables that are written. -/
def Abort.ofLoop : Abort → Bool
  | .endlessLoop => true
  | .divByZero => true
  | .divByNoSte => true
  | .sortingError => true
  | .notMatchedSte => true
  | _ => false

/-- A failure of an invalidation that has to succeed. -/
def Abort.ofBit : Abort → Bool
  | .doubleDelete => true
  | .invalidateMap => true
  | .bitError => true
  | _ => false

/-- A failure that only writing can meet: that of an invalidation, or of a table that is full. -/
def Abort.ofWrite : Abort → Bool
  | .sortedTableFull => true
  | e => e.ofBit

theorem of_divByZero (hE : ∀ e, e ≠ .divByZero → e.ofWrite = false → E e) :
  ∀ e : Abort, e.ofLoop = false → e.ofWrite = false → E e
  := by
  intro e he
  apply hE
  rintro rfl
  cases he

/-! ### Writing to a run -/

namespace Run

variable {r : Run δ} {dev : Dev δ}

/-- The sorted table has no room for another entry. -/
def TableFull (r : Run δ) : Prop := r.stBody.maxSteNum ≤ r.stBody.nowSteNum

/-- `r'` is of the type of `r`, and its table is as large. -/
structure SameKind (r r' : Run δ) : Prop where
  type : r'.type = r.type
  maxSteNum : r'.stBody.maxSteNum = r.stBody.maxSteNum

theorem SameKind.refl (r : Run δ) :
  r.SameKind r
  := ⟨rfl, rfl⟩

theorem SameKind.trans {r' r'' : Run δ} (h : r.SameKind r') (h' : r'.SameKind r'') :
  r.SameKind r''
  := ⟨h'.type.trans h.type, h'.maxSteNum.trans h.maxSteNum⟩

/-- `r'` is of the kind of `r`, and its finished blocks are those of `r`. -/
structure SameTable (r r' : Run δ) : Prop where
  kind : r.SameKind r'
  stes : r'.stBody.stes = r.stBody.stes

theorem SameTable.refl (r : Run δ) :
  r.SameTable r
  := ⟨.refl r, rfl⟩

theorem SameTable.trans {r' r'' : Run δ} (h : r.SameTable r') (h' : r'.SameTable r'') :
  r.SameTable r''
  := ⟨h.kind.trans h'.kind, h'.stes.trans h.stes⟩

theorem SameTable.tableFull {r' : Run δ} (h : r.SameTable r') (hfull : r'.TableFull) :
  r.TableFull
  := by
  rw [TableFull, StArray.nowSteNum, h.stes, h.kind.maxSteNum] at hfull
  apply hfull

/-- No failure of a run that is written to is one of the loops, it fails in an invalidation
only when it is a log, and for want of room only when its table is full. -/
theorem writeTranslation_meets (hE : ∀ e, e.ofLoop = false → e.ofWrite = false → E e) :
  Meets E (fun x => r.SameTable x.2.1) (r.writeTranslation g dev)
  := by
  apply (meets_require (hE _ rfl rfl)).bind
  intro _ _
  split
  · exact ⟨⟨rfl, rfl⟩, rfl⟩
  · apply SameTable.refl r

theorem validatePiecePpa_meets {e : Abort} {q : ℕ} (he : E e) :
  Meets E (fun _ => True) (dev.validatePiecePpa g e q)
  := by
  unfold Dev.validatePiecePpa
  split
  · trivial
  · apply he

theorem invalidatePiecePpa_meets {e : Abort} {q : ℕ} {force : Bool}
    (he : force = true → E e) :
  Meets E (fun _ => True) (dev.invalidatePiecePpa g e q force)
  := by
  unfold Dev.invalidatePiecePpa
  split
  · rename_i h
    apply he h.2
  · trivial

theorem logInsert_meets (hE : ∀ e, e.ofLoop = false → e.ofWrite = false → E e) {lba n : ℕ}
    (hdel : r.type = .runLog → E .doubleDelete) :
  Meets E (fun _ => True) (r.logInsert g dev lba n)
  := by
  unfold logInsert
  split
  · trivial
  · rename_i htype
    apply (meets_require (hE _ rfl rfl)).bind
    intro _ _
    dsimp only
    split
    · trivial
    · apply (invalidatePiecePpa_meets fun _ => hdel htype).bind
      intro _ _
      trivial

theorem insertPair_meets (hE : ∀ e, e.ofLoop = false → e.ofWrite = false → E e) {sa : StArray}
    {p : SummaryPair} (hfull : sa.maxSteNum ≤ sa.nowSteNum → E .sortedTableFull) :
  Meets E (fun sa' => sa'.stes = sa.stes ∧ sa'.maxSteNum = sa.maxSteNum) (sa.insertPair g p)
  := by
  unfold StArray.insertPair
  split
  · apply hE _ rfl rfl
  · split
    · rename_i hle
      apply hfull hle
    · exact ⟨rfl, rfl⟩

theorem writePiece_meets (hE : ∀ e, e.ofLoop = false → e.ofWrite = false → E e) {lba : ℕ}
    (hdel : r.type = .runLog → E .doubleDelete) (hfull : r.TableFull → E .sortedTableFull) :
  Meets E (fun x => r.SameTable x.2.1) (r.writePiece g dev lba)
  := by
  apply (writeTranslation_meets hE).bind
  rintro ⟨psa, r₁, dev⟩ hsame
  apply (validatePiecePpa_meets (hE _ rfl rfl)).bind
  intro dev _
  apply (logInsert_meets hE fun h => hdel (hsame.kind.type.symm.trans h)).bind
  rintro ⟨tree, dev⟩ _
  apply (insertPair_meets hE fun h => hfull (hsame.tableFull h)).bind
  rintro sa ⟨hstes, hmax⟩
  apply hsame.trans
  exact ⟨⟨rfl, hmax⟩, hstes⟩

theorem writePieces_meets (hE : ∀ e, e.ofLoop = false → e.ofWrite = false → E e)
    (lbas : List ℕ) :
  ∀ {r : Run δ} {dev : Dev δ}, (r.type = .runLog → E .doubleDelete) →
    (lbas ≠ [] → r.TableFull → E .sortedTableFull) →
    Meets E (fun x => r.SameTable x.2.1) (writePieces g lbas r dev)
  := by
  induction lbas with
  | nil =>
      intro r dev _ _
      apply SameTable.refl r
  | cons lba lbas ih =>
      intro r dev hdel hfull
      have hfull := hfull (List.cons_ne_nil _ _)
      apply (writePiece_meets hE hdel hfull).bind
      rintro ⟨psa, r₁, dev₁⟩ hsame
      apply (ih (fun h => hdel (hsame.kind.type.symm.trans h))
        fun _ h => hfull (hsame.tableFull h)).bind
      intro x hx
      apply hsame.trans hx

theorem writeBuffer_meets {pp : PpBuffer δ}
    (hw : Meets E (fun x => r.SameTable x.2.1) (writePieces g (pp.items.map (·.1)) r dev)) :
  Meets E (fun x => r.SameTable x.1) (r.writeBuffer g pp dev)
  := by
  apply hw.bind
  intro _ hx
  apply hx

theorem writeMeta_meets (hE : ∀ e, e.ofLoop = false → e.ofWrite = false → E e) {force : Bool} :
  Meets E (fun x => r.SameKind x.1) (r.writeMeta g dev force)
  := by
  unfold writeMeta
  apply (meets_require (hE _ rfl rfl)).bind
  intro _ _
  split
  · exact ⟨rfl, rfl⟩
  · apply (meets_require (hE _ rfl rfl)).bind
    intro _ _
    apply (validatePiecePpa_meets (hE _ rfl rfl)).bind
    intro _ _
    exact ⟨rfl, rfl⟩

theorem insertSector_meets (hE : ∀ e, e.ofLoop = false → e.ofWrite = false → E e) {lba : ℕ}
    {d : δ}
    (hw : Meets E (fun x => r.SameTable x.2.1)
      (writePieces g ((r.ppInsert lba d).items.map (·.1)) r dev)) :
  Meets E (fun x => r.SameKind x.1) (r.insertSector g dev lba d)
  := by
  apply Meets.bind (Q := fun x => r.SameKind x.1)
  · unfold bufferSector
    dsimp only
    split
    · apply (writeBuffer_meets hw).bind
      intro _ hx
      exact ⟨hx.kind.type, hx.kind.maxSteNum⟩
    · exact ⟨rfl, rfl⟩
  · rintro ⟨r₁, dev₁⟩ hkind
    apply Meets.bind (Q := fun x => r₁.SameKind x.1)
    · unfold writeMetaOnAlert
      split
      · apply writeMeta_meets hE
      · apply SameKind.refl r₁
    · intro x hx
      apply hkind.trans
      exact ⟨hx.type, hx.maxSteNum⟩

theorem flushBuffer_meets
    (hw : Meets E (fun x => r.SameTable x.2.1)
      (writePieces g (r.buffered.map (·.1)) r dev)) :
  Meets E (fun x => r.SameTable x.1) (r.flushBuffer g dev)
  := by
  unfold flushBuffer
  split
  · apply SameTable.refl r
  · rename_i pp hpp
    split
    · apply SameTable.refl r
    · rw [buffered, hpp] at hw
      apply (writeBuffer_meets hw).bind
      intro _ hx
      exact ⟨⟨hx.kind.type, hx.kind.maxSteNum⟩, hx.stes⟩

theorem paddingCurrentBlock_meets (hE : ∀ e, e.ofLoop = false → e.ofWrite = false → E e)
    (hw : Meets E (fun x => r.SameTable x.2.1)
      (writePieces g (r.buffered.map (·.1)) r dev))
    (hfull : r.TableFull → E .sortedTableFull) :
  Meets E (fun x => r.SameKind x.1) (r.paddingCurrentBlock g dev)
  := by
  apply (flushBuffer_meets hw).bind
  rintro ⟨r₁, dev⟩ hsame
  apply Meets.bind (Q := fun x => x.2.maxSteNum = r₁.stBody.maxSteNum)
  · unfold StArray.forceSkipBlock
    split
    · rename_i hle
      apply hfull (hsame.tableFull hle)
    · split
      · rfl
      · rfl
  · rintro ⟨res, sa⟩ hmax
    have hkind : r₁.SameKind { r₁ with stBody := sa } := ⟨rfl, hmax⟩
    dsimp only
    split
    · apply (writeMeta_meets hE).mono
      intro x hx
      apply hsame.kind.trans (hkind.trans hx)
    · apply hsame.kind.trans hkind

theorem insertDone_meets_of_writes (hE : ∀ e, e.ofLoop = false → e.ofWrite = false → E e)
    (hw : Meets E (fun x => r.SameTable x.2.1)
      (writePieces g (r.buffered.map (·.1)) r dev)) :
  Meets E (fun x => r.SameKind x.1) (r.insertDone g dev)
  := by
  apply (flushBuffer_meets hw).bind
  rintro ⟨r₁, dev⟩ hsame
  apply (writeMeta_meets hE).bind
  rintro ⟨r₂, dev⟩ hkind
  apply hsame.kind.trans
  exact ⟨hkind.type, hkind.maxSteNum⟩

theorem insertDone_meets (hE : ∀ e, e.ofLoop = false → E e) :
  Meets E (fun x => r.SameKind x.1) (r.insertDone g dev)
  := by
  have hE' : ∀ e, e.ofLoop = false → e.ofWrite = false → E e := fun e h _ => hE e h
  apply insertDone_meets_of_writes hE'
    (writePieces_meets hE' _ (fun _ => hE _ rfl) fun _ _ => hE _ rfl)

end Run

/-! ### Owners -/

/-- Every lba that has an owner in `sc` has one in `sc'`. -/
def ShortcutMaster.KeepsOwned (sc sc' : ShortcutMaster) : Prop :=
  ∀ lba, sc.scMap lba ≠ none → sc'.scMap lba ≠ none

namespace ShortcutMaster

variable {sc sc' sc'' : ShortcutMaster}

theorem KeepsOwned.refl (sc : ShortcutMaster) :
  sc.KeepsOwned sc
  := fun _ h => h

theorem KeepsOwned.trans (h : sc.KeepsOwned sc') (h' : sc'.KeepsOwned sc'') :
  sc.KeepsOwned sc''
  := fun lba hlba => h' lba (h lba hlba)

/-- An lba that gets an owner. -/
theorem keepsOwned_update {lba idx : ℕ}
    (h : sc'.scMap = Function.update sc.scMap lba (some idx)) :
  sc.KeepsOwned sc'
  := by
  intro l hl
  rw [h, Function.update_apply]
  split
  · exact nofun
  · apply hl

theorem foldl_setCompactionFlag_scMap {α : Type} (f : α → ℕ) (flag : Bool) (l : List α) :
  ∀ (sc : ShortcutMaster),
    (l.foldl (fun sc a => sc.setCompactionFlag (f a) flag) sc).scMap = sc.scMap
  := by
  induction l with
  | nil =>
      intro sc
      rfl
  | cons a l ih =>
      intro sc
      rw [List.foldl_cons, ih]
      rfl

theorem linkBulkLba_meets (hE : ∀ e, e.ofLoop = false → e.ofWrite = false → E e) {idx : ℕ}
    {lbas : List ℕ} :
  Meets E (sc.KeepsOwned ·) (sc.linkBulkLba idx lbas)
  := by
  apply meets_foldlM (fun sc' => sc.KeepsOwned sc') _ (.refl sc)
  intro lba _ sc₁ h₁
  unfold linkBulkOne
  dsimp only
  split
  · apply hE _ rfl rfl
  · apply h₁.trans (keepsOwned_update rfl)

theorem validityCheckAndLink_owned (src des lba : ℕ) :
  sc.KeepsOwned (sc.validityCheckAndLink src des lba).2 ∧
    ((sc.validityCheckAndLink src des lba).1 = true →
      (sc.validityCheckAndLink src des lba).2.scMap lba = some des)
  := by
  unfold validityCheckAndLink
  split
  · use keepsOwned_update rfl, fun _ => Function.update_self ..
  · split
    · refine ⟨?_, fun _ => Function.update_self ..⟩
      intro l hl
      simp only [linkLba, Function.update_apply]
      split
      · exact nofun
      · rename_i hne
        split
        · unfold unlinkLba
          split
          · apply hl
          · dsimp only
            rw [Function.update_of_ne hne]
            apply hl
        · apply hl
    · use .refl sc, nofun

end ShortcutMaster

theorem Run.insert_meets (hE : ∀ e, e.ofLoop = false → e.ofWrite = false → E e) {r : Run δ}
    {sc : ShortcutMaster} {dev : Dev δ} {lba : ℕ} {d : δ}
    (hw : Meets E (fun x => r.SameTable x.2.1)
      (Run.writePieces g ((r.ppInsert lba d).items.map (·.1)) r dev)) :
  Meets E (fun x => r.SameKind x.1 ∧ sc.KeepsOwned x.2.1) (r.insert g sc dev lba d)
  := by
  unfold Run.insert
  apply (meets_require (hE _ rfl rfl)).bind
  intro _ _
  split
  · apply (Run.insertSector_meets hE hw).bind
    intro _ hx
    use hx, .refl sc
  · dsimp only
    have hlink := (sc.validityCheckAndLink_owned r.info r.info lba).1
    split
    · apply (Run.insertSector_meets hE hw).bind
      intro _ hx
      use hx, hlink
    · use .refl r, hlink

/-! ### Iterators -/

namespace SpSetIter

variable {ssi ssi' : SpSetIter}

/-- A division by the number of pairs for each entry does no harm. -/
def CanDivide (E : Abort → Prop) (ssi : SpSetIter) : Prop := E .divByZero ∨ ssi.stePerEnt ≠ 0

/-- The iterator goes on without harm: the division does none, or there is nothing to divide
any more, since at most one pair is left and no block is moved. -/
def Safe (E : Abort → Prop) (ssi : SpSetIter) : Prop :=
  ssi.CanDivide E ∨ (ssi.tree.length ≤ 1 ∧ ssi.noncopyLba = [])

/-- The iterator `ssi'` is `ssi` after some pairs. -/
structure Later (ssi ssi' : SpSetIter) : Prop where
  divisor : ssi'.stePerEnt = ssi.stePerEnt
  noncopy : ssi'.noncopyLba = ssi.noncopyLba
  length : ssi'.tree.length ≤ ssi.tree.length

theorem Later.refl (ssi : SpSetIter) :
  ssi.Later ssi
  := ⟨rfl, rfl, Nat.le_refl _⟩

theorem Later.trans {ssi'' : SpSetIter} (h : ssi.Later ssi') (h' : ssi'.Later ssi'') :
  ssi.Later ssi''
  where
    divisor := h'.divisor.trans h.divisor
    noncopy := h'.noncopy.trans h.noncopy
    length := h'.length.trans h.length

theorem CanDivide.later (h : ssi.CanDivide E) (hl : ssi.Later ssi') :
  ssi'.CanDivide E
  := by
  unfold CanDivide
  rw [hl.divisor]
  apply h

theorem Safe.later (h : ssi.Safe E) (hl : ssi.Later ssi') :
  ssi'.Safe E
  := by
  rcases h with h | ⟨hlen, hnil⟩
  · left
    apply h.later hl
  · right
    use hl.length.trans hlen, hl.noncopy.trans hnil

theorem countPick_meets (h : ssi.CanDivide E) :
  Meets E (fun ssi' => ssi.Later ssi' ∧ ssi'.tree = ssi.tree) ssi.countPick
  := by
  rcases h with h | h
  · apply (meets_require h).bind
    intro _ _
    exact ⟨⟨rfl, rfl, Nat.le_refl _⟩, rfl⟩
  · simp only [countPick, require, h, ne_eq, not_false_eq_true, if_true]
    exact ⟨⟨rfl, rfl, Nat.le_refl _⟩, rfl⟩

theorem move_meets (hE : ∀ e, e ≠ .divByZero → e.ofWrite = false → E e) (h : ssi.Safe E) :
  Meets E (ssi.Later ·) ssi.move
  := by
  unfold move
  split
  · split
    · exact hE _ nofun rfl
    · split
      · use rfl, rfl, Nat.le_refl _
      · use rfl, rfl, Nat.le_refl _
  · have htail : ssi.tree.tail.length ≤ ssi.tree.length := by
      rw [List.length_tail]
      omega
    split
    · use rfl, rfl, Nat.zero_le _
    · rename_i hne
      split
      · use rfl, rfl, htail
      · have hdiv : ssi.CanDivide E := by
          rcases h with h | ⟨hlen, -⟩
          · apply h
          · exfalso
            apply hne
            rw [← List.length_eq_zero_iff, List.length_tail]
            omega
        have hnext : ssi.Later { ssi with tree := ssi.tree.tail } := ⟨rfl, rfl, htail⟩
        apply (countPick_meets (hdiv.later hnext)).mono
        rintro ssi' ⟨hl, -⟩
        apply hnext.trans hl

theorem dropTree_meets {endLba : ℕ} (t : TreeMap) :
  ∀ {ssi : SpSetIter}, ssi.CanDivide E →
    Meets E (fun ssi' => ssi'.stePerEnt = ssi.stePerEnt ∧ ssi'.noncopyLba = ssi.noncopyLba)
      (dropTree endLba t ssi)
  := by
  induction t with
  | nil =>
      intro ssi _
      exact ⟨rfl, rfl⟩
  | cons x t ih =>
      intro ssi h
      obtain ⟨lba, offset⟩ := x
      unfold dropTree
      split
      · apply (countPick_meets h).bind
        rintro ssi₁ ⟨h₁, -⟩
        apply (ih (h.later h₁)).mono
        rintro ssi₂ ⟨hd, hn⟩
        use hd.trans h₁.divisor, hn.trans h₁.noncopy
      · exact ⟨rfl, rfl⟩

theorem moveSte_meets (hE : ∀ e, e ≠ .divByZero → e.ofWrite = false → E e) {steNum endLba : ℕ}
    (h : ssi.CanDivide E) :
  Meets E (Safe E) (ssi.moveSte steNum endLba)
  := by
  unfold moveSte
  apply (meets_require (hE _ (by decide) rfl)).bind
  intro _ _
  split
  · left
    apply h
  · apply (dropTree_meets ssi.tree h).mono
    rintro ssi' ⟨hd, -⟩
    left
    unfold CanDivide
    rw [hd]
    apply h

end SpSetIter

theorem Mm.moveIterTarget_meets (hE : ∀ e, e ≠ .divByZero → e.ofWrite = false → E e) {mm : Mm δ}
    (h : mm.ssi.Safe E) :
  Meets E (fun mm' => mm.ssi.Later mm'.ssi) mm.moveIterTarget
  := by
  unfold moveIterTarget
  split
  · exact .refl _
  · apply (SpSetIter.move_meets hE h).bind
    intro ssi hssi
    apply hssi

theorem Mm.originalPsa_meets (hE : ∀ e, e.ofLoop = false → e.ofWrite = false → E e) {mm : Mm δ}
    {lba ste intraIdx : ℕ} :
  Meets E (fun _ => True) (mm.originalPsa g lba ste intraIdx)
  := by
  unfold originalPsa
  split
  · apply (meets_orThrow fun _ => hE _ rfl rfl).bind
    intro _ _
    trivial
  · trivial

theorem Mm.invalidateTarget_meets (hE : ∀ e, e.ofLoop = false → e.ofWrite = false → E e)
    {mm : Mm δ} {dev : Dev δ} {lba psa steNum : ℕ} {force : Bool}
    (he : force = true → E .bitError) :
  Meets E (fun _ => True) (mm.invalidateTarget g dev lba psa force steNum)
  := by
  apply (Mm.originalPsa_meets hE).bind
  intro _ _
  apply Run.invalidatePiecePpa_meets he

/-! ### A merge -/

namespace MergeState

variable {st : MergeState δ}

/-- All iterators go on without harm. -/
def AllSafe (E : Abort → Prop) (mms : List (Mm δ)) : Prop := ∀ mm ∈ mms, mm.ssi.Safe E

theorem AllSafe.set {mms : List (Mm δ)} (h : AllSafe E mms) {i : ℕ} {mm : Mm δ}
    (hmm : mm.ssi.Safe E) :
  AllSafe E (mms.set i mm)
  := by
  intro x hx
  rcases List.mem_or_eq_of_mem_set hx with hx | rfl
  · apply h x hx
  · apply hmm

theorem skipOld_meets (hE : ∀ e, e ≠ .divByZero → e.ofWrite = false → E e) {ridx : ℕ} {p : Picked}
    (h : AllSafe E st.mms) :
  Meets E (fun st' => AllSafe E st'.mms ∧ st'.sc = st.sc) (st.skipOld g ridx p)
  := by
  unfold skipOld
  apply (meets_orThrow fun _ => hE _ (by decide) rfl).bind
  intro mm hmm
  have hsafe := h mm (List.mem_of_getElem? hmm)
  apply (Mm.invalidateTarget_meets (of_divByZero hE) fun h => absurd h Bool.false_ne_true).bind
  intro dev _
  apply (Mm.moveIterTarget_meets hE hsafe).bind
  intro mm' hmm'
  exact ⟨h.set (hsafe.later hmm'), rfl⟩

theorem pickSmallestPair_meets (hE : ∀ e, e ≠ .divByZero → e.ofWrite = false → E e) (fuel : ℕ) :
  ∀ {st : MergeState δ}, AllSafe E st.mms →
    Meets E (fun x => AllSafe E x.2.mms ∧ x.2.sc = st.sc) (pickSmallestPair g fuel st)
  := by
  induction fuel with
  | zero =>
      intro st _
      exact hE _ nofun rfl
  | succ fuel ih =>
      intro st h
      unfold pickSmallestPair
      split
      · apply (meets_require (hE _ (by decide) rfl)).bind
        intro _ _
        exact ⟨h, rfl⟩
      · apply (meets_orThrow fun _ => hE _ (by decide) rfl).bind
        intro mm _
        split
        · apply (skipOld_meets hE h).bind
          rintro st₁ ⟨h₁, hsc₁⟩
          apply (ih h₁).mono
          rintro x ⟨hx, hsc⟩
          use hx, hsc.trans hsc₁
        · exact ⟨h, rfl⟩

theorem dropOther_meets (hE : ∀ e, e.ofLoop = false → e.ofWrite = false → E e) {mm : Mm δ}
    {p : Picked}
    {isOther : Bool} {psa : ℕ} {dev : Dev δ} :
  Meets E (fun _ => True) (dropOther g mm p isOther psa dev)
  := by
  unfold dropOther
  split
  · apply Mm.invalidateTarget_meets hE fun h => absurd h Bool.false_ne_true
  · trivial

theorem moveIter_meets (hE : ∀ e, e ≠ .divByZero → e.ofWrite = false → E e) {lba psa ridx : ℕ}
    (mms : List (Mm δ)) :
  ∀ {i : ℕ} {dev : Dev δ}, AllSafe E mms →
    Meets E (fun x => AllSafe E x.1) (moveIter g lba psa ridx i mms dev)
  := by
  induction mms with
  | nil =>
      intro i dev h
      apply h
  | cons mm mms ih =>
      intro i dev h
      have hmm := h mm List.mem_cons_self
      have hrest : AllSafe E mms := fun x hx => h x (List.mem_cons_of_mem _ hx)
      have hcons : ∀ {mm' : Mm δ} {dev' : Dev δ}, mm'.ssi.Safe E →
          Meets E (fun x => AllSafe E x.1)
            (moveIter g lba psa ridx (i + 1) mms dev' >>= fun x => .ok (mm' :: x.1, x.2)) := by
        intro mm' dev' hmm'
        apply (ih hrest).bind
        intro x hx y hy
        rcases List.mem_cons.mp hy with rfl | hy
        · apply hmm'
        · apply hx y hy
      unfold moveIter
      split
      · apply hcons hmm
      · apply (meets_orThrow fun _ => hE _ (by decide) rfl).bind
        intro p _
        split
        · apply (dropOther_meets (of_divByZero hE)).bind
          intro dev₁ _
          apply (Mm.moveIterTarget_meets hE hmm).bind
          intro mm' hmm'
          apply hcons (hmm.later hmm')
        · apply hcons hmm

theorem push_meets (hE : ∀ e, e ≠ .divByZero → e.ofWrite = false → E e) {ridx : ℕ} {p : Picked}
    (h : AllSafe E st.mms) :
  Meets E (fun st' => AllSafe E st'.mms ∧ st'.sc = st.sc) (st.push g ridx p)
  := by
  apply (moveIter_meets hE st.mms h).bind
  intro x hx
  exact ⟨hx, rfl⟩

/-- The iterator that stands at a block to be moved can divide. -/
def CanMove (E : Abort → Prop) (target : Option ℕ) (mms : List (Mm δ)) : Prop :=
  ∀ ridx, target = some ridx → ∀ mm, mms[ridx]? = some mm → mm.ssi.CanDivide E

theorem noncopyNext_safe {ridx : ℕ} {lba : ℕ} (h : AllSafe E st.mms)
    (hcheck : st.noncopyCheck ridx lba = true) :
  AllSafe E (st.noncopyNext ridx).mms ∧ CanMove E (some ridx) (st.noncopyNext ridx).mms
  := by
  constructor
  · intro mm hmm
    obtain ⟨i, hi⟩ := List.mem_iff_getElem?.mp hmm
    simp only [noncopyNext, List.getElem?_modify] at hi
    obtain ⟨mm₀, hmm₀, rfl⟩ := Option.map_eq_some_iff.mp hi
    have hsafe := h mm₀ (List.mem_of_getElem? hmm₀)
    split
    · apply hsafe
    · apply hsafe
  · intro i hi mm hmm
    cases hi
    simp only [noncopyNext, List.getElem?_modify, if_true] at hmm
    obtain ⟨mm₀, hmm₀, rfl⟩ := Option.map_eq_some_iff.mp hmm
    rcases h mm₀ (List.mem_of_getElem? hmm₀) with hdiv | ⟨-, hnil⟩
    · apply hdiv
    · simp [noncopyCheck, hmm₀, SpSetIter.noncopyCheck, hnil] at hcheck

theorem sortingMmSet_meets (hE : ∀ e, e ≠ .divByZero → e.ofWrite = false → E e)
    {targetRound : ℕ} {flag : Bool}
    (fuel : ℕ) :
  ∀ {st : MergeState δ} {prev : Option ℕ}, AllSafe E st.mms →
    Meets E (fun x => AllSafe E x.2.mms ∧ CanMove E x.1 x.2.mms ∧ x.2.sc = st.sc)
      (sortingMmSet g targetRound flag fuel prev st)
  := by
  induction fuel with
  | zero =>
      intro st prev _
      exact hE _ nofun rfl
  | succ fuel ih =>
      intro st prev h
      unfold sortingMmSet
      split
      · exact ⟨h, nofun, rfl⟩
      · apply (pickSmallestPair_meets hE _ h).bind
        rintro ⟨picked, st₁⟩ ⟨h₁, hsc₁⟩
        dsimp only at h₁ hsc₁ ⊢
        split
        · apply (ih h₁).mono
          rintro x ⟨hx, hm, hsc⟩
          use hx, hm, hsc.trans hsc₁
        · split
          · rename_i hcheck
            simp only [Bool.and_eq_true] at hcheck
            obtain ⟨hall, hmove⟩ := noncopyNext_safe h₁ hcheck.2
            use hall, hmove, hsc₁
          · apply (meets_require (hE _ (by decide) rfl)).bind
            intro _ _
            apply (push_meets hE h₁).bind
            rintro st₂ ⟨h₂, hsc₂⟩
            apply (ih h₂).mono
            rintro x ⟨hx, hm, hsc⟩
            use hx, hm, hsc.trans (hsc₂.trans hsc₁)

/-- The first loop of `__write_merged_data`, when a failure of an invalidation does no harm. -/
theorem invalidateAll_meets (hE : ∀ e, e.ofLoop = false → e.ofWrite = false → E e)
    (he : E .bitError) (xs : List (SortedPair × ℕ × δ)) :
  Meets E (fun _ => True) (xs.foldlM (invalidateSorted g st) st.dev)
  := by
  apply meets_foldlM (fun _ => True) _ trivial
  intro x _ dev _
  unfold invalidateSorted
  apply (meets_orThrow fun _ => hE _ rfl rfl).bind
  intro mm _
  apply Mm.invalidateTarget_meets hE fun _ => he

/-- The second loop of `__write_merged_data`, when it does no harm that an insertion fails. -/
theorem insertSorted_meets (hE : ∀ e, e.ofLoop = false → e.ofWrite = false → E e)
    (hdel : st.res.type = .runLog → E .doubleDelete) (hfull : E .sortedTableFull)
    (xs : List (SortedPair × ℕ × δ)) (dev : Dev δ) :
  Meets E (fun x => st.sc.KeepsOwned x.2.1) (xs.foldlM (insertSorted g) (st.res, st.sc, dev))
  := by
  apply (meets_foldlM (fun x : Run δ × ShortcutMaster × Dev δ =>
    st.res.SameKind x.1 ∧ st.sc.KeepsOwned x.2.1) _ ⟨.refl _, .refl st.sc⟩).mono
  · rintro x ⟨-, hx⟩
    apply hx
  · rintro x _ s ⟨hkind, hs⟩
    apply (Run.insert_meets hE (Run.writePieces_meets hE _ (fun h =>
      hdel (hkind.type.symm.trans h)) fun _ _ => hfull)).mono
    rintro y ⟨hy, hsc⟩
    use hkind.trans hy, hs.trans hsc

theorem sortedArrayFlush_meets (hE : ∀ e, e.ofLoop = false → e.ofWrite = false → E e)
    (hinv : ∀ xs, st.sortedArr.mapM (readSorted g st) = .ok xs →
      Meets E (fun _ => True) (xs.foldlM (invalidateSorted g st) st.dev))
    (hins : ∀ xs dev, st.sortedArr.mapM (readSorted g st) = .ok xs →
      Meets E (fun x => st.sc.KeepsOwned x.2.1)
        (xs.foldlM (insertSorted g) (st.res, st.sc, dev))) :
  Meets E (fun st' => st'.mms = st.mms ∧ st.sc.KeepsOwned st'.sc) (st.sortedArrayFlush g)
  := by
  unfold sortedArrayFlush
  apply (Meets.with_ok (Q := fun _ => True) _ fun _ h => h).bind
  · rintro xs ⟨-, hxs⟩
    apply (hinv xs hxs).bind
    intro dev _
    apply (hins xs dev hxs).bind
    rintro ⟨res, sc, dev⟩ hsc
    apply (ShortcutMaster.linkBulkLba_meets hE).bind
    intro sc' hsc'
    use rfl, ShortcutMaster.KeepsOwned.trans hsc hsc'
  · apply meets_mapM
    intro p _
    unfold readSorted
    apply (meets_orThrow fun _ => hE _ rfl rfl).bind
    intro mm _
    apply (Mm.originalPsa_meets hE).bind
    intro _ _
    trivial

theorem flushSorted_meets (hE : ∀ e, e.ofLoop = false → e.ofWrite = false → E e)
    (hinv : ∀ xs, st.sortedArr.mapM (readSorted g st) = .ok xs →
      Meets E (fun _ => True) (xs.foldlM (invalidateSorted g st) st.dev))
    (hins : ∀ xs dev, st.sortedArr.mapM (readSorted g st) = .ok xs →
      Meets E (fun x => st.sc.KeepsOwned x.2.1)
        (xs.foldlM (insertSorted g) (st.res, st.sc, dev))) :
  Meets E (fun st' => st'.mms = st.mms ∧ st.sc.KeepsOwned st'.sc) (st.flushSorted g)
  := by
  unfold flushSorted
  split
  · use rfl, .refl _
  · apply sortedArrayFlush_meets hE hinv hins

theorem collectLbas_meets (hE : ∀ e, e ≠ .divByZero → e.ofWrite = false → E e) {endLba : ℕ}
    (fuel : ℕ) :
  ∀ {mm : Mm δ}, mm.ssi.CanDivide E →
    Meets E (fun x => x.2.ssi.CanDivide E) (collectLbas g endLba fuel mm)
  := by
  induction fuel with
  | zero =>
      intro mm _
      exact hE _ nofun rfl
  | succ fuel ih =>
      intro mm h
      unfold collectLbas
      apply (meets_orThrow fun _ => hE _ (by decide) rfl).bind
      intro p _
      split
      · apply h
      · apply (Mm.moveIterTarget_meets hE (.inl h)).bind
        intro mm' hmm'
        apply (ih (h.later hmm')).bind
        intro x hx
        apply hx

theorem trivialMove_meets (hE : ∀ e, e ≠ .divByZero → e.ofWrite = false → E e) {ridx : ℕ}
    (h : AllSafe E st.mms) (hmove : CanMove E (some ridx) st.mms)
    (hpad : Meets E (fun x => st.res.SameKind x.1) (st.res.paddingCurrentBlock g st.dev)) :
  Meets E (fun st' => AllSafe E st'.mms ∧ st.sc.KeepsOwned st'.sc) (st.trivialMove g ridx)
  := by
  unfold trivialMove
  apply hpad.bind
  rintro ⟨res, dev⟩ _
  apply (meets_orThrow fun _ => hE _ (by decide) rfl).bind
  intro mm hmm
  apply (meets_orThrow fun _ => hE _ (by decide) rfl).bind
  intro p _
  apply (meets_orThrow fun _ => hE _ (by decide) rfl).bind
  intro steNum _
  apply (collectLbas_meets hE _ (hmove ridx rfl mm hmm)).bind
  rintro ⟨lbas, mm'⟩ hdiv
  apply (ShortcutMaster.linkBulkLba_meets (of_divByZero hE)).bind
  intro sc hsc
  apply (SpSetIter.moveSte_meets hE hdiv).bind
  intro ssi hssi
  use h.set hssi, hsc

theorem round_meets (hE : ∀ e, e ≠ .divByZero → E e) {targetRound : ℕ} {force : Bool}
    (h : AllSafe E st.mms) :
  Meets E (fun st' => AllSafe E st'.mms ∧ st.sc.KeepsOwned st'.sc)
    (st.round g targetRound force)
  := by
  unfold round
  have hE' : ∀ e, e ≠ .divByZero → e.ofWrite = false → E e := fun e h _ => hE e h
  apply (sortingMmSet_meets hE' _ h).bind
  rintro ⟨target, st₁⟩ ⟨h₁, hmove, hsc₁⟩
  dsimp only at h₁ hmove hsc₁ ⊢
  apply (flushSorted_meets (of_divByZero hE') (fun xs _ => invalidateAll_meets
    (of_divByZero hE') (hE _ nofun) xs) fun xs dev _ => insertSorted_meets (of_divByZero hE')
    (fun _ => hE _ nofun) (hE _ nofun) xs dev).bind
  rintro st₂ ⟨hmms, hsc₂⟩
  rw [hsc₁] at hsc₂
  rw [← hmms] at h₁ hmove
  cases target with
  | none => use h₁, hsc₂
  | some ridx =>
      apply (trivialMove_meets hE' h₁ hmove (Run.paddingCurrentBlock_meets (of_divByZero hE')
        (Run.writePieces_meets (of_divByZero hE') _ (fun _ => hE _ nofun) fun _ _ => hE _ nofun)
        fun _ => hE _ nofun)).mono
      rintro st₃ ⟨h₃, hsc₃⟩
      use h₃, hsc₂.trans hsc₃

theorem rounds_meets (hE : ∀ e, e ≠ .divByZero → E e) {step : ℕ} {force : Bool} (fuel : ℕ) :
  ∀ {targetRound : ℕ} {st : MergeState δ}, AllSafe E st.mms →
    Meets E (fun st' => st.sc.KeepsOwned st'.sc) (rounds g step force fuel targetRound st)
  := by
  induction fuel with
  | zero =>
      intro targetRound st _
      exact hE _ nofun
  | succ fuel ih =>
      intro targetRound st h
      unfold rounds
      apply (round_meets hE h).bind
      rintro st₁ ⟨h₁, hsc₁⟩
      split
      · apply hsc₁
      · apply (ih h₁).mono
        intro st₂ hsc₂
        apply hsc₁.trans hsc₂

theorem start_meets {rset : List (Run δ)} {target : Run δ}
    {force : Bool} {sc : ShortcutMaster} {dev : Dev δ}
    (h : ∀ x ∈ rset.zipIdx, Meets E (fun mm => mm.ssi.Safe E) (makeMm target
      (if force then [] else checkDisjoint rset (allBlocks rset) [] []) x)) :
  Meets E (fun st => AllSafe E st.mms ∧ st.sc.scMap = sc.scMap)
    (start rset target force sc dev)
  := by
  unfold start
  apply (meets_mapM_all h).bind
  intro mms hmms
  use hmms, ShortcutMaster.foldl_setCompactionFlag_scMap (fun r : Run δ => r.info) true rset sc

/-- A merge fails at its beginning only for a log without blocks. -/
theorem start_meets_of {rset : List (Run δ)} {target : Run δ} {force : Bool} {sc : ShortcutMaster}
    {dev : Dev δ} (he : E .divByNoSte) :
  Meets E (fun _ => True) (start rset target force sc dev)
  := by
  unfold start
  apply (meets_mapM fun x _ => ?_).bind
  · intro _ _
    trivial
  · unfold makeMm
    apply Meets.bind (Q := fun _ => True)
    · unfold SpSetIter.init
      dsimp only
      split
      · trivial
      · apply Meets.bind (Q := fun _ => True)
        · apply (meets_require he).mono fun _ _ => trivial
        · intro _ _
          trivial
    · intro _ _
      trivial

end MergeState

/-- A merge whose iterators begin without harm ends without harm. -/
theorem runMerge_meets (hE : ∀ e, e ≠ .divByZero → E e) {rset : List (Run δ)} {target : Run δ}
    {force : Bool} {sc : ShortcutMaster} {dev : Dev δ}
    (h : ∀ x ∈ rset.zipIdx, Meets E (fun mm => mm.ssi.Safe E) (MergeState.makeMm target
      (if force then [] else MergeState.checkDisjoint rset (MergeState.allBlocks rset) [] [])
      x)) :
  Meets E (fun st => sc.KeepsOwned st.sc) (runMerge g rset target force sc dev)
  := by
  unfold runMerge
  apply (MergeState.start_meets h).bind
  rintro st₀ ⟨h₀, hsc₀⟩
  apply (MergeState.rounds_meets hE _ h₀).bind
  intro st₁ hsc₁
  apply (Run.insertDone_meets fun e h => hE e (by rintro rfl; cases h)).bind
  rintro ⟨res, dev'⟩ _ lba hlba
  rw [← hsc₀] at hlba
  change (st₁.mms.foldl (fun sc mm => sc.setCompactionFlag mm.r.info false) st₁.sc).scMap lba
    ≠ none
  rw [ShortcutMaster.foldl_setCompactionFlag_scMap (fun mm : Mm δ => mm.r.info) false st₁.mms st₁.sc]
  apply hsc₁ lba hlba

end AppL
