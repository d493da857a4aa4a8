import Mathlib.Data.List.TakeWhile
import AppL.Lsm.ShortcutDir

/-!
# Cursors of the directories

A cursor remembers the entry of the offset at which it was used last, so that the bits are
counted from there on.  An insertion tells the cursors of its directory to start again, unless
they stand before the offset that is changed.  The insertion of a list of lbas counts the bits
of the directory once.
-/

namespace AppL

open Transition RunLength

/-- `sc_dir_dp`; `targetDir` is the index of the directory it points to. -/
structure Cursor where
  prevOffset : ℕ
  prevDirIdx : ℕ
  prevTableIdx : ℤ
  targetDir : ℕ
  reinit : Bool
  deriving DecidableEq, Repr

/-- The variables of the loop of `sc_dir_insert_lba_dp`. -/
structure Bulk where
  dir : ShortcutDir
  infoSet : ℕ → ScInfo
  tempOffset : ℕ
  targetTableIdx : ℤ

/-- The owner of an lba loses it; an lba that is not assigned has no owner. -/
def unlinkInfo (infoSet : ℕ → ScInfo) (infoIdx : ℕ) : ℕ → ScInfo :=
  if infoIdx ≠ notAssignedSc then
    Function.update infoSet infoIdx
      { infoSet infoIdx with unlinkedLbaNum := (infoSet infoIdx).unlinkedLbaNum + 1 }
  else
    infoSet

/-- A run gets an lba. -/
def linkInfo (infoSet : ℕ → ScInfo) (scIdx : ℕ) : ℕ → ScInfo :=
  Function.update infoSet scIdx
    { infoSet scIdx with linkedLbaNum := (infoSet scIdx).linkedLbaNum + 1 }

/-- One turn of the loop of `sc_dir_insert_lba_dp`. -/
def Bulk.turn (scIdx : ℕ) (unlink : Bool) (b : Bulk) (lba : ℕ) : Except Abort Bulk := do
  let targetOffset := lba % scPerDir
  let t := b.dir.countBits b.targetTableIdx
    (List.range' b.tempOffset (targetOffset - b.tempOffset))
  let prevCheck := b.dir.bmap targetOffset
  let t := if prevCheck then t + 1 else t
  let i ← tableIndex t
  let infoIdx ← b.dir.dirMapQuery i
  let infoSet := if unlink then unlinkInfo b.infoSet infoIdx else b.infoSet
  let dir ← b.dir.compressionTarget i targetOffset scIdx
  let t := if dir.bmap targetOffset then
      if prevCheck then t else t + 1
    else if prevCheck then t - 1 else t
  return {
    dir := dir
    infoSet := linkInfo infoSet scIdx
    tempOffset := targetOffset + 1
    targetTableIdx := t }

/-- The directories and infos of `shortcut_master`, and `dp_master` with the cursors at their
addresses. -/
structure DirMaster where
  scDir : ℕ → ShortcutDir
  infoSet : ℕ → ScInfo
  dirDpTree : List (ℕ × ℕ)
  dp : ℕ → Option Cursor

namespace DirMaster

/-- After `shortcut_init`. -/
def init : DirMaster where
  scDir i := (ShortcutDir.init i).toOption.getD ⟨fun _ => false, 0, [], i⟩
  infoSet _ := ⟨0, 0, 0, 0, false, false⟩
  dirDpTree := []
  dp _ := none

variable (s : DirMaster)

/-- The elements of the multimap from `find` on: the first one with the key, and all after it. -/
def findDp (key : ℕ) : List (ℕ × ℕ) := s.dirDpTree.dropWhile fun e => e.1 ≠ key

/-- The loop over the cursors at the end of an insertion. -/
def setReinit (key : ℕ) (p : Cursor → Bool) : Except Abort DirMaster := do
  let found := (s.findDp key).map Prod.snd
  require .outOfBounds (∀ id ∈ found, (s.dp id).isSome)
  return { s with
    dp := fun id => if id ∈ found then
        (s.dp id).map fun c => if p c then { c with reinit := true } else c
      else
        s.dp id }

/-- `sc_dir_insert_lba`. -/
def insertLba (target offset scIdx : ℕ) : Except Abort DirMaster := do
  let dir ← (s.scDir target).insertLba offset scIdx
  let s := { s with scDir := Function.update s.scDir target dir }
  s.setReinit dir.idx fun c => offset ≤ c.prevOffset

/-- The body of the loop of `shortcut_link_bulk_lba` that inserts one lba after another. -/
def linkOne (scIdx : ℕ) (unlink : Bool) (s : DirMaster) (lba : ℕ) : Except Abort DirMaster := do
  let infoIdx ← (s.scDir (lba / scPerDir)).queryLba (lba % scPerDir)
  let infoSet := if unlink then unlinkInfo s.infoSet infoIdx else s.infoSet
  let s ← { s with infoSet := infoSet }.insertLba (lba / scPerDir) (lba % scPerDir) scIdx
  return { s with infoSet := linkInfo s.infoSet scIdx }

/-- `sc_dir_insert_lba_dp`. -/
def insertLbaDp (target scIdx startIdx : ℕ) (lbaSet : List ℕ) (unlink : Bool) :
    Except Abort (DirMaster × ℕ) := do
  let dir := s.scDir target
  let lbas := (lbaSet.drop startIdx).takeWhile fun lba => lba / scPerDir = dir.idx
  let b ← lbas.foldlM (Bulk.turn scIdx unlink) ⟨dir, s.infoSet, 0, -1⟩
  let s := { s with scDir := Function.update s.scDir target b.dir, infoSet := b.infoSet }
  let s ← s.setReinit dir.idx fun _ => true
  return (s, startIdx + lbas.length)

/-- The multimap without the cursor `id`, which is looked for from `find` on. -/
def eraseDp (key id : ℕ) : List (ℕ × ℕ) :=
  s.dirDpTree.takeWhile (fun e => e.1 ≠ key) ++ (s.findDp key).eraseP fun e => e.2 = id

/-- `insert` of a multimap. -/
def insertDp (tree : List (ℕ × ℕ)) (e : ℕ × ℕ) : List (ℕ × ℕ) :=
  tree.takeWhile (fun e' => e'.1 ≤ e.1) ++ e :: tree.dropWhile fun e' => e'.1 ≤ e.1

/-- `dp_reinit`. -/
def dpReinit (id targetDirIdx : ℕ) : Except Abort DirMaster := do
  let c ← orThrow .outOfBounds (s.dp id)
  return { s with
    dp := Function.update s.dp id (some {
      prevOffset := 0
      prevDirIdx := targetDirIdx
      prevTableIdx := if (s.scDir targetDirIdx).bmap 0 then 0 else -1
      targetDir := targetDirIdx
      reinit := false })
    dirDpTree := insertDp (s.eraseDp c.prevDirIdx id) (targetDirIdx, id) }

/-- `sc_dir_dp_init`; the cursor is put at the address `id`. -/
def dpInit (id lba : ℕ) : Except Abort DirMaster :=
  { s with dp := Function.update s.dp id (some ⟨0, 0, 0, 0, false⟩) }.dpReinit id (lba / scPerDir)

/-- The end of `sc_dir_dp_get_sc`, when the cursor is in the directory of the lba. -/
def dpAdvance (id lba : ℕ) : Except Abort (DirMaster × ℕ) := do
  let c ← orThrow .outOfBounds (s.dp id)
  if c.prevDirIdx = lba / scPerDir then
    let targetOffset := lba % scPerDir
    let t := (s.scDir c.targetDir).countBits c.prevTableIdx
      (List.range' (c.prevOffset + 1) (targetOffset - c.prevOffset))
    let i ← tableIndex t
    let sc ← (s.scDir c.targetDir).dirMapQuery i
    let c := { c with prevOffset := targetOffset, prevTableIdx := t }
    return ({ s with dp := Function.update s.dp id (some c) }, sc)
  else
    return (s, uint32Max)

/-- `sc_dir_dp_get_sc`. -/
def dpGetSc (id lba : ℕ) : Except Abort (DirMaster × ℕ) := do
  let c ← orThrow .outOfBounds (s.dp id)
  let s ← if c.reinit ∨ lba / scPerDir ≠ c.prevDirIdx ∨ c.prevOffset > lba % scPerDir then
      s.dpReinit id (lba / scPerDir)
    else
      .ok s
  s.dpAdvance id lba

/-- `sc_dir_dp_free`. -/
def dpFree (id : ℕ) : Except Abort DirMaster := do
  let c ← orThrow .outOfBounds (s.dp id)
  require .outOfBounds (∃ e ∈ s.findDp c.prevDirIdx, e.2 = id)
  return { s with dp := Function.update s.dp id none, dirDpTree := s.eraseDp c.prevDirIdx id }

end DirMaster

/-- The calls. -/
inductive DirOp
  | insert (lba scIdx : ℕ)
  | bulk (target scIdx startIdx : ℕ) (lbaSet : List ℕ) (unlink : Bool)
  | dpInit (id lba : ℕ)
  | dpGet (id lba : ℕ)
  | dpFree (id : ℕ)
  deriving DecidableEq, Repr

namespace DirMaster

/-- One call. -/
def step (s : DirMaster) : DirOp → Except Abort DirMaster
  | .insert lba scIdx => s.insertLba (lba / scPerDir) (lba % scPerDir) scIdx
  | .bulk target scIdx startIdx lbaSet unlink =>
      Prod.fst <$> s.insertLbaDp target scIdx startIdx lbaSet unlink
  | .dpInit id lba => s.dpInit id lba
  | .dpGet id lba => Prod.fst <$> s.dpGetSc id lba
  | .dpFree id => s.dpFree id

/-- The callers use indices of one byte, lists of lbas in order, and cursors that have been
allocated and not been freed. -/
def Allowed (s : DirMaster) : DirOp → Prop
  | .insert _ scIdx => scIdx < 2 ^ 8
  | .bulk _ scIdx _ lbaSet _ => scIdx < 2 ^ 8 ∧ lbaSet.Pairwise (· < ·)
  | .dpInit id _ => s.dp id = none
  | .dpGet id _ => s.dp id ≠ none
  | .dpFree id => s.dp id ≠ none

instance (s : DirMaster) : (op : DirOp) → Decidable (s.Allowed op)
  | .insert _ scIdx => inferInstanceAs (Decidable (scIdx < 2 ^ 8))
  | .bulk _ scIdx _ lbaSet _ =>
      inferInstanceAs (Decidable (scIdx < 2 ^ 8 ∧ lbaSet.Pairwise (· < ·)))
  | .dpInit id _ => inferInstanceAs (Decidable (s.dp id = none))
  | .dpGet id _ => inferInstanceAs (Decidable (s.dp id ≠ none))
  | .dpFree id => inferInstanceAs (Decidable (s.dp id ≠ none))

end DirMaster

/-! ### Bulk insertions -/

section Bulk

variable {v : ℕ → ℕ} {idx scIdx lba : ℕ} {unlink : Bool} {infoSet : ℕ → ScInfo}

/-- The variables of the loop when the offsets before `o` have been counted. -/
def Bulk.at (idx : ℕ) (v : ℕ → ℕ) (infoSet : ℕ → ScInfo) (o : ℕ) : Bulk where
  dir := .canon idx v
  infoSet := infoSet
  tempOffset := o
  targetTableIdx := -1 + (part v 0 o).length

/-- The infos after an lba with the owner `infoIdx` has gone to `scIdx`. -/
def takeInfo (scIdx : ℕ) (unlink : Bool) (infoSet : ℕ → ScInfo) (infoIdx : ℕ) : ℕ → ScInfo :=
  linkInfo (if unlink then unlinkInfo infoSet infoIdx else infoSet) scIdx

theorem bmap_canon {o : ℕ} (ho : o < scPerDir) :
  (ShortcutDir.canon idx v).bmap o = isHead v o
  := by
  unfold ShortcutDir.canon
  dsimp only
  rw [decide_eq_true ho, Bool.true_and]

/-- The bits from an offset on. -/
theorem countBits_canon {a n : ℕ} (t : ℤ) (hle : a + n ≤ scPerDir) :
  (ShortcutDir.canon idx v).countBits t (List.range' a n) = t + (part v a n).length
  := by
  rw [ShortcutDir.countBits_eq, length_part]
  congr 2
  apply List.countP_congr
  intro i hi
  have hlt := (List.mem_range'_1.mp hi).2
  rw [bmap_canon (by omega)]

theorem length_part_succ (v : ℕ → ℕ) (o : ℕ) :
  ((part v 0 (o + 1)).length : ℤ) = (part v 0 o).length + if isHead v o then 1 else 0
  := by
  rw [part_succ, List.length_append, Nat.zero_add]
  split
  · simp
  · simp

/-- One turn of the loop changes the index of one offset. -/
theorem Bulk.turn_eq {o : ℕ} (hv : ∀ o, v o < 2 ^ 8) (hx : scIdx < 2 ^ 8)
    (hle : o ≤ lba % scPerDir) :
  Bulk.turn scIdx unlink (.at idx v infoSet o) lba
    = .ok (.at idx (Function.update v (lba % scPerDir) scIdx)
        (takeInfo scIdx unlink infoSet (v (lba % scPerDir))) (lba % scPerDir + 1))
  := by
  have hlt : lba % scPerDir < scPerDir := Nat.mod_lt _ (by decide)
  unfold Bulk.turn Bulk.at
  dsimp only
  generalize lba % scPerDir = n at *
  have hcount : (ShortcutDir.canon idx v).countBits (-1 + (part v 0 o).length)
      (List.range' o (n - o)) = -1 + (part v 0 n).length := by
    have happend := part_append v 0 o (n - o)
    have hsum : o + (n - o) = n := by omega
    rw [hsum, Nat.zero_add] at happend
    rw [countBits_canon _ (by omega), ← happend, List.length_append]
    push_cast
    omega
  have hindex : (if isHead v n then -1 + ((part v 0 n).length : ℤ) + 1
      else -1 + ((part v 0 n).length : ℤ)) = -1 + (part v 0 (n + 1)).length := by
    rw [length_part_succ]
    split
    · omega
    · omega
  rw [hcount, bmap_canon hlt, hindex]
  refine bind_eq_ok.mpr ⟨_, ShortcutDir.tableIndex_part v n, ?_⟩
  refine bind_eq_ok.mpr ⟨_, ShortcutDir.dirMapQuery_canon hlt, ?_⟩
  refine bind_eq_ok.mpr ⟨_, ShortcutDir.compressionTarget_canon hlt (hv n) hx, ?_⟩
  rw [bmap_canon hlt]
  have hbefore : part (Function.update v n scIdx) 0 n = part v 0 n := by
    apply part_congr
    intro i _ hi
    rw [Function.update_of_ne (by omega)]
  have hafter : (if isHead (Function.update v n scIdx) n then
        if isHead v n then -1 + ((part v 0 (n + 1)).length : ℤ)
        else -1 + ((part v 0 (n + 1)).length : ℤ) + 1
      else if isHead v n then -1 + ((part v 0 (n + 1)).length : ℤ) - 1
        else -1 + ((part v 0 (n + 1)).length : ℤ))
      = -1 + (part (Function.update v n scIdx) 0 (n + 1)).length := by
    rw [length_part_succ, length_part_succ, hbefore]
    split
    · split
      · omega
      · omega
    · split
      · omega
      · omega
  rw [hafter]
  rfl

/-- The indices and the infos after lbas have gone to `scIdx`. -/
def takeAll (scIdx : ℕ) (unlink : Bool) :
    List ℕ → (ℕ → ℕ) × (ℕ → ScInfo) → (ℕ → ℕ) × (ℕ → ScInfo)
  | [], r => r
  | lba :: l, r =>
      takeAll scIdx unlink l (Function.update r.1 (lba % scPerDir) scIdx,
        takeInfo scIdx unlink r.2 (r.1 (lba % scPerDir)))

/-- The bytes of a directory after a change. -/
theorem update_lt (hv : ∀ o, v o < 2 ^ 8) (hx : scIdx < 2 ^ 8) (n : ℕ) :
  ∀ o, Function.update v n scIdx o < 2 ^ 8
  := by
  intro o
  rw [Function.update_apply]
  split
  · apply hx
  · apply hv o

theorem takeAll_lt {l : List ℕ} (hx : scIdx < 2 ^ 8) :
  ∀ {r : (ℕ → ℕ) × (ℕ → ScInfo)}, (∀ o, r.1 o < 2 ^ 8) → ∀ o, (takeAll scIdx unlink l r).1 o < 2 ^ 8
  := by
  induction l with
  | nil =>
      intro r hr
      apply hr
  | cons lba l ih =>
      intro r hr
      apply ih
      apply update_lt hr hx _

/-- The loop of `sc_dir_insert_lba_dp`. -/
theorem bulk_eq {lbas : List ℕ} (hx : scIdx < 2 ^ 8) :
  ∀ {v : ℕ → ℕ} {infoSet : ℕ → ScInfo} {o : ℕ}, (∀ o, v o < 2 ^ 8) →
    (∀ lba ∈ lbas, o ≤ lba % scPerDir) →
    lbas.Pairwise (fun a b => a % scPerDir < b % scPerDir) →
    ∃ o', lbas.foldlM (Bulk.turn scIdx unlink) (.at idx v infoSet o)
      = .ok (.at idx (takeAll scIdx unlink lbas (v, infoSet)).1
          (takeAll scIdx unlink lbas (v, infoSet)).2 o')
  := by
  induction lbas with
  | nil =>
      intro v infoSet o _ _ _
      exact ⟨o, rfl⟩
  | cons lba lbas ih =>
      intro v infoSet o hv hle hasc
      obtain ⟨hlt, hasc⟩ := List.pairwise_cons.mp hasc
      obtain ⟨o', hloop⟩ := @ih _ (takeInfo scIdx unlink infoSet (v (lba % scPerDir))) _
        (update_lt hv hx (lba % scPerDir)) hlt hasc
      use o'
      rw [List.foldlM_cons]
      apply bind_eq_ok.mpr ⟨_, Bulk.turn_eq hv hx (hle lba List.mem_cons_self), hloop⟩

end Bulk

/-! ### Cursors -/

section Cursors

/-- A cursor that need not start again has counted the bits up to its offset. -/
def Cursor.Sound (v : ℕ → ℕ → ℕ) (c : Cursor) : Prop :=
  c.prevOffset < scPerDir
    ∧ c.prevTableIdx = -1 + (part (v c.prevDirIdx) 0 (c.prevOffset + 1)).length

/-- The multimap has every cursor once, under the directory it is in. -/
structure Listed (s : DirMaster) : Prop where
  mem : ∀ id c, s.dp id = some c → (c.prevDirIdx, id) ∈ s.dirDpTree
  live : ∀ e ∈ s.dirDpTree, ∃ c, s.dp e.2 = some c ∧ c.prevDirIdx = e.1
  once : (s.dirDpTree.map Prod.snd).Nodup

/-- The directories are those of the indices `v`, and the cursors are right. -/
structure DirInv (v : ℕ → ℕ → ℕ) (s : DirMaster) : Prop where
  bytes : ∀ d o, v d o < 2 ^ 8
  dirs : ∀ d, s.scDir d = .canon d (v d)
  listed : Listed s
  target : ∀ id c, s.dp id = some c → c.targetDir = c.prevDirIdx
  sound : ∀ id c, s.dp id = some c → c.reinit = false → c.Sound v

variable {s : DirMaster} {v : ℕ → ℕ → ℕ} {id key lba scIdx : ℕ} {unlink : Bool}

theorem mem_dropWhile {α : Type} {p : α → Bool} {l : List α} {a : α} (ha : a ∈ l)
    (hp : p a = false) :
  a ∈ l.dropWhile p
  := by
  rw [← @List.takeWhile_append_dropWhile _ p l] at ha
  obtain ha | ha := List.mem_append.mp ha
  · have hpos := List.mem_takeWhile_imp ha
    rw [hp] at hpos
    cases hpos
  · apply ha

/-- The first element of a cursor is erased. -/
theorem mem_eraseP {l : List (ℕ × ℕ)} (hl : (l.map Prod.snd).Nodup) (e : ℕ × ℕ) :
  e ∈ l.eraseP (fun e => e.2 = id) ↔ e ∈ l ∧ e.2 ≠ id
  := by
  by_cases hex : ∃ a ∈ l, a.2 = id
  · obtain ⟨a, ha, haid⟩ := hex
    obtain ⟨b, l₁, l₂, hbefore, hb, rfl, herase⟩ := List.exists_of_eraseP (p := fun e => e.2 = id) ha
      (by simpa using haid)
    have hbid : b.2 = id := by simpa using hb
    have hone : ∀ x ∈ l₁ ++ l₂, x.2 ≠ id := by
      rw [List.map_append, List.map_cons] at hl
      have hperm := List.perm_middle.nodup_iff.mp hl
      rw [← List.map_append] at hperm
      intro x hx heq
      apply (List.nodup_cons.mp hperm).1 (List.mem_map.mpr ⟨x, hx, heq.trans hbid.symm⟩)
    rw [herase]
    constructor
    · intro he
      refine ⟨?_, hone e he⟩
      obtain he | he := List.mem_append.mp he
      · apply List.mem_append_left _ he
      · apply List.mem_append_right _ (List.mem_cons_of_mem b he)
    · rintro ⟨he, hne⟩
      obtain he | he := List.mem_append.mp he
      · apply List.mem_append_left _ he
      · obtain rfl | he := List.mem_cons.mp he
        · exact absurd hbid hne
        · apply List.mem_append_right _ he
  · have hnone : ∀ a ∈ l, ¬ decide (a.2 = id) = true := by
      intro a ha heq
      apply hex ⟨a, ha, of_decide_eq_true heq⟩
    rw [List.eraseP_of_forall_not hnone]
    constructor
    · intro he
      use he, fun heq => hex ⟨e, he, heq⟩
    · exact fun h => h.1

/-- The multimap without a cursor. -/
theorem mem_eraseDp (honce : (s.dirDpTree.map Prod.snd).Nodup)
    (hkey : ∀ e ∈ s.dirDpTree, e.2 = id → e.1 = key) (e : ℕ × ℕ) :
  e ∈ s.eraseDp key id ↔ e ∈ s.dirDpTree ∧ e.2 ≠ id
  := by
  have hsplit : s.dirDpTree.takeWhile (fun e => decide (e.1 ≠ key)) ++ s.findDp key = s.dirDpTree
    := List.takeWhile_append_dropWhile
  have hsuffix : ((s.findDp key).map Prod.snd).Nodup := by
    apply List.Nodup.sublist ((List.dropWhile_sublist _).map _) honce
  unfold DirMaster.eraseDp
  rw [List.mem_append, mem_eraseP hsuffix]
  constructor
  · rintro (he | ⟨he, hne⟩)
    · have hmem : e ∈ s.dirDpTree := (List.takeWhile_sublist _).subset he
      have hneq : decide (e.1 ≠ key) = true
        := List.mem_takeWhile_imp (p := fun e : ℕ × ℕ => decide (e.1 ≠ key)) he
      use hmem, fun heq => of_decide_eq_true hneq (hkey e hmem heq)
    · use (List.dropWhile_sublist _).subset he, hne
  · rintro ⟨he, hne⟩
    rw [← hsplit] at he
    obtain he | he := List.mem_append.mp he
    · left
      apply he
    · right
      use he, hne

theorem nodup_eraseDp (honce : (s.dirDpTree.map Prod.snd).Nodup) :
  ((s.eraseDp key id).map Prod.snd).Nodup
  := by
  have hsplit : s.dirDpTree.takeWhile (fun e => decide (e.1 ≠ key)) ++ s.findDp key = s.dirDpTree
    := List.takeWhile_append_dropWhile
  have hsub : (s.eraseDp key id).Sublist s.dirDpTree := by
    conv_rhs => rw [← hsplit]
    apply List.Sublist.append_left List.eraseP_sublist _
  apply List.Nodup.sublist (hsub.map _) honce

theorem insertDp_perm (tree : List (ℕ × ℕ)) (e : ℕ × ℕ) :
  (DirMaster.insertDp tree e).Perm (e :: tree)
  := by
  unfold DirMaster.insertDp
  refine List.perm_middle.trans ?_
  rw [List.takeWhile_append_dropWhile]

/-- The cursors that are told to start again. -/
theorem DirInv.setReinit {p : Cursor → Bool} (hbytes : ∀ d o, v d o < 2 ^ 8)
    (hdirs : ∀ d, s.scDir d = .canon d (v d)) (hlisted : Listed s)
    (htarget : ∀ id c, s.dp id = some c → c.targetDir = c.prevDirIdx)
    (hsound : ∀ id c, s.dp id = some c → c.reinit = false →
      c.Sound v ∨ c.prevDirIdx = key ∧ p c = true) :
  ∃ s', s.setReinit key p = .ok s' ∧ DirInv v s' ∧ s'.scDir = s.scDir ∧ s'.infoSet = s.infoSet
    ∧ ∀ id, s'.dp id = none ↔ s.dp id = none
  := by
  have hlive : ∀ id ∈ (s.findDp key).map Prod.snd, (s.dp id).isSome := by
    intro id hid
    obtain ⟨e, he, rfl⟩ := List.mem_map.mp hid
    obtain ⟨c, hc, -⟩ := hlisted.live e ((List.dropWhile_sublist _).subset he)
    rw [hc]
    rfl
  refine ⟨_, bind_eq_ok.mpr ⟨(), require_eq_ok.mpr hlive, rfl⟩, ?_, rfl, rfl, ?_⟩
  · have hback : ∀ id c', (if id ∈ (s.findDp key).map Prod.snd then
        (s.dp id).map fun c => if p c then { c with reinit := true } else c
        else s.dp id) = some c' → ∃ c, s.dp id = some c ∧ c'.prevDirIdx = c.prevDirIdx
          ∧ c'.targetDir = c.targetDir
          ∧ (c'.reinit = false → c' = c ∧ (c.prevDirIdx = key → p c = false)) := by
      intro id c' hc'
      split at hc'
      · obtain ⟨c, hc, rfl⟩ := Option.map_eq_some_iff.mp hc'
        use c, hc
        cases hpc : p c with
        | true =>
            rw [if_pos rfl]
            use rfl, rfl, fun h => by cases h
        | false =>
            rw [if_neg Bool.false_ne_true]
            use rfl, rfl, fun _ => ⟨rfl, fun _ => rfl⟩
      · rename_i hout
        refine ⟨c', hc', rfl, rfl, fun _ => ⟨rfl, fun hkey => ?_⟩⟩
        exfalso
        apply hout
        have hmem := hlisted.mem id c' hc'
        refine List.mem_map.mpr ⟨_, mem_dropWhile hmem ?_, rfl⟩
        simpa using hkey
    refine ⟨hbytes, hdirs, ⟨?_, ?_, hlisted.once⟩, ?_, ?_⟩
    · intro id c' hc'
      obtain ⟨c, hc, hidx, -⟩ := hback id c' hc'
      rw [hidx]
      apply hlisted.mem id c hc
    · intro e he
      obtain ⟨c, hc, hidx⟩ := hlisted.live e he
      dsimp only
      split
      · rw [hc]
        refine ⟨_, rfl, ?_⟩
        dsimp only
        split
        · apply hidx
        · apply hidx
      · use c, hc, hidx
    · intro id c' hc'
      obtain ⟨c, hc, hidx, htgt, -⟩ := hback id c' hc'
      rw [hidx, htgt]
      apply htarget id c hc
    · intro id c' hc' hflag
      obtain ⟨c, hc, -, -, hsame⟩ := hback id c' hc'
      obtain ⟨rfl, hkey⟩ := hsame hflag
      rcases hsound id c' hc hflag with h | ⟨hk, hp⟩
      · apply h
      · rw [hkey hk] at hp
        cases hp
  · intro id
    dsimp only
    split
    · apply Option.map_eq_none_iff
    · apply Iff.rfl

/-- A cursor starts in a directory. -/
theorem DirInv.dpReinit {c : Cursor} (d : ℕ) (hbytes : ∀ d o, v d o < 2 ^ 8)
    (hdirs : ∀ d, s.scDir d = .canon d (v d)) (hc : s.dp id = some c)
    (hmem : ∀ id' c', id' ≠ id → s.dp id' = some c' → (c'.prevDirIdx, id') ∈ s.dirDpTree)
    (hlive : ∀ e ∈ s.dirDpTree, e.2 ≠ id → ∃ c, s.dp e.2 = some c ∧ c.prevDirIdx = e.1)
    (honce : (s.dirDpTree.map Prod.snd).Nodup)
    (hkey : ∀ e ∈ s.dirDpTree, e.2 = id → e.1 = c.prevDirIdx)
    (htarget : ∀ id' c', id' ≠ id → s.dp id' = some c' → c'.targetDir = c'.prevDirIdx)
    (hsound : ∀ id' c', id' ≠ id → s.dp id' = some c' → c'.reinit = false → c'.Sound v) :
  ∃ s', s.dpReinit id d = .ok s' ∧ DirInv v s' ∧ s'.dp = Function.update s.dp id (some ⟨0, d, 0, d, false⟩)
    ∧ s'.scDir = s.scDir
  := by
  have hbit : (s.scDir d).bmap 0 = true := by
    rw [hdirs d]
    apply isHead_zero (v d)
  refine ⟨_, bind_eq_ok.mpr ⟨c, orThrow_eq_ok.mpr hc, rfl⟩, ?_, by rw [hbit]; rfl, rfl⟩
  rw [hbit, if_pos rfl]
  have hperm := insertDp_perm (s.eraseDp c.prevDirIdx id) (d, id)
  have hmemErase := mem_eraseDp honce hkey
  have hback : ∀ {id' : ℕ} {c' : Cursor},
      Function.update s.dp id (some ⟨0, d, 0, d, false⟩) id' = some c' →
        id' = id ∧ c' = ⟨0, d, 0, d, false⟩ ∨ id' ≠ id ∧ s.dp id' = some c' := by
    intro id' c' hc'
    by_cases hid : id' = id
    · rw [hid, Function.update_self] at hc'
      left
      use hid, (Option.some.inj hc').symm
    · rw [Function.update_of_ne hid] at hc'
      right
      use hid, hc'
  refine ⟨hbytes, hdirs, ⟨?_, ?_, ?_⟩, ?_, ?_⟩
  · intro id' c' hc'
    apply hperm.mem_iff.mpr
    rcases hback hc' with ⟨rfl, rfl⟩ | ⟨hne, hc'⟩
    · apply List.mem_cons_self
    · apply List.mem_cons_of_mem _ ((hmemErase _).mpr ⟨hmem id' c' hne hc', hne⟩)
  · intro e he
    obtain rfl | he := List.mem_cons.mp (hperm.mem_iff.mp he)
    · exact ⟨_, Function.update_self .., rfl⟩
    · obtain ⟨he, hne⟩ := (hmemErase e).mp he
      obtain ⟨c', hc', hidx⟩ := hlive e he hne
      use c', by dsimp only; rw [Function.update_of_ne hne]; exact hc', hidx
  · apply (hperm.map Prod.snd).nodup_iff.mpr
    refine List.nodup_cons.mpr ⟨?_, nodup_eraseDp honce⟩
    intro hin
    obtain ⟨e, he, heq⟩ := List.mem_map.mp hin
    exact ((hmemErase e).mp he).2 heq
  · intro id' c' hc'
    rcases hback hc' with ⟨rfl, rfl⟩ | ⟨hne, hc'⟩
    · rfl
    · apply htarget id' c' hne hc'
  · intro id' c' hc' hflag
    rcases hback hc' with ⟨rfl, rfl⟩ | ⟨hne, hc'⟩
    · use Nat.zero_lt_succ 255
      dsimp only
      rw [part_succ, Nat.add_zero, isHead_zero]
      rfl
    · apply hsound id' c' hne hc' hflag

/-- A cursor goes on to an offset. -/
theorem DirInv.dpAdvance (h : DirInv v s) {c : Cursor} (hc : s.dp id = some c)
    (hflag : c.reinit = false) (hdir : c.prevDirIdx = lba / scPerDir)
    (hle : c.prevOffset ≤ lba % scPerDir) :
  ∃ s', s.dpAdvance id lba = .ok (s', v (lba / scPerDir) (lba % scPerDir)) ∧ DirInv v s'
  := by
  have hlt : lba % scPerDir < scPerDir := Nat.mod_lt _ (by decide)
  obtain ⟨hoff, htable⟩ := h.sound id c hc hflag
  have hidx : c.targetDir = lba / scPerDir := (h.target id c hc).trans hdir
  rw [hdir] at htable
  have hcount : (s.scDir c.targetDir).countBits c.prevTableIdx
      (List.range' (c.prevOffset + 1) (lba % scPerDir - c.prevOffset))
      = -1 + (part (v (lba / scPerDir)) 0 (lba % scPerDir + 1)).length := by
    have happend := part_append (v (lba / scPerDir)) 0 (c.prevOffset + 1)
      (lba % scPerDir - c.prevOffset)
    have hsum : c.prevOffset + 1 + (lba % scPerDir - c.prevOffset) = lba % scPerDir + 1 := by omega
    rw [hsum, Nat.zero_add] at happend
    rw [hidx, h.dirs, countBits_canon _ (by omega), htable, ← happend, List.length_append]
    push_cast
    omega
  have hstep : s.dpAdvance id lba = .ok ({ s with dp := Function.update s.dp id (some { c with
        prevOffset := lba % scPerDir
        prevTableIdx := -1 + (part (v (lba / scPerDir)) 0 (lba % scPerDir + 1)).length }) },
      v (lba / scPerDir) (lba % scPerDir)) := by
    refine bind_eq_ok.mpr ⟨c, orThrow_eq_ok.mpr hc, ?_⟩
    rw [if_pos hdir]
    dsimp only
    rw [hcount]
    refine bind_eq_ok.mpr ⟨_, ShortcutDir.tableIndex_part _ _, ?_⟩
    refine bind_eq_ok.mpr ⟨_, ?_, rfl⟩
    rw [hidx, h.dirs]
    apply ShortcutDir.dirMapQuery_canon hlt
  refine ⟨_, hstep, h.bytes, h.dirs, ⟨?_, ?_, h.listed.once⟩, ?_, ?_⟩
  · intro id' c' hc'
    dsimp only at hc'
    by_cases hid : id' = id
    · rw [hid, Function.update_self] at hc'
      cases hc'
      rw [hid]
      apply h.listed.mem id c hc
    · rw [Function.update_of_ne hid] at hc'
      apply h.listed.mem id' c' hc'
  · intro e he
    obtain ⟨c', hc', hkey⟩ := h.listed.live e he
    dsimp only
    by_cases hid : e.2 = id
    · rw [hid, Function.update_self]
      rw [hid, hc] at hc'
      cases hc'
      exact ⟨_, rfl, hkey⟩
    · rw [Function.update_of_ne hid]
      use c', hc', hkey
  · intro id' c' hc'
    dsimp only at hc'
    by_cases hid : id' = id
    · rw [hid, Function.update_self] at hc'
      cases hc'
      apply h.target id c hc
    · rw [Function.update_of_ne hid] at hc'
      apply h.target id' c' hc'
  · intro id' c' hc' hflag'
    dsimp only at hc'
    by_cases hid : id' = id
    · rw [hid, Function.update_self] at hc'
      cases hc'
      use hlt
      dsimp only
      rw [hdir]
    · rw [Function.update_of_ne hid] at hc'
      apply h.sound id' c' hc' hflag'

/-- A cursor gives the index of an lba. -/
theorem DirInv.dpGetSc (h : DirInv v s) (hid : s.dp id ≠ none) (lba : ℕ) :
  ∃ s', s.dpGetSc id lba = .ok (s', v (lba / scPerDir) (lba % scPerDir)) ∧ DirInv v s'
  := by
  obtain ⟨c, hc⟩ := Option.ne_none_iff_exists'.mp hid
  by_cases hcond : c.reinit ∨ lba / scPerDir ≠ c.prevDirIdx ∨ c.prevOffset > lba % scPerDir
  · obtain ⟨s₁, hs₁, hinv, hdp, -⟩ := @DirInv.dpReinit s v id c (lba / scPerDir) h.bytes h.dirs hc
      (fun id' c' _ => h.listed.mem id' c') (fun e he _ => h.listed.live e he) h.listed.once
      (by
        intro e he heq
        obtain ⟨c', hc', hkey⟩ := h.listed.live e he
        rw [heq, hc] at hc'
        cases hc'
        exact hkey.symm)
      (fun id' c' _ => h.target id' c') (fun id' c' _ => h.sound id' c')
    have hnew : s₁.dp id = some ⟨0, lba / scPerDir, 0, lba / scPerDir, false⟩ := by
      rw [hdp, Function.update_self]
    obtain ⟨s₂, hs₂, hinv₂⟩ := @DirInv.dpAdvance s₁ v id lba hinv _ hnew rfl rfl (Nat.zero_le _)
    refine ⟨s₂, bind_eq_ok.mpr ⟨c, orThrow_eq_ok.mpr hc, ?_⟩, hinv₂⟩
    rw [if_pos hcond]
    apply bind_eq_ok.mpr ⟨s₁, hs₁, hs₂⟩
  · have hflag : c.reinit = false := by
      apply Bool.eq_false_iff.mpr
      exact fun hr => hcond (.inl hr)
    have hdir : c.prevDirIdx = lba / scPerDir := by
      by_contra hne
      apply hcond (.inr (.inl (Ne.symm hne)))
    have hle : c.prevOffset ≤ lba % scPerDir := by
      by_contra hgt
      apply hcond (.inr (.inr (by omega)))
    obtain ⟨s₂, hs₂, hinv₂⟩ := h.dpAdvance hc hflag hdir hle
    refine ⟨s₂, bind_eq_ok.mpr ⟨c, orThrow_eq_ok.mpr hc, ?_⟩, hinv₂⟩
    rw [if_neg hcond]
    apply bind_eq_ok.mpr ⟨s, rfl, hs₂⟩

/-- A new cursor. -/
theorem DirInv.dpInit (h : DirInv v s) (hid : s.dp id = none) (lba : ℕ) :
  ∃ s', s.dpInit id lba = .ok s' ∧ DirInv v s'
  := by
  have hother : ∀ {id' : ℕ} {c' : Cursor}, id' ≠ id →
      Function.update s.dp id (some ⟨0, 0, 0, 0, false⟩) id' = some c' → s.dp id' = some c' := by
    intro id' c' hne hc'
    rw [Function.update_of_ne hne] at hc'
    apply hc'
  have hno : ∀ e ∈ s.dirDpTree, e.2 ≠ id := by
    intro e he heq
    obtain ⟨c, hc, -⟩ := h.listed.live e he
    rw [heq, hid] at hc
    cases hc
  obtain ⟨s', hs', hinv, -⟩ := @DirInv.dpReinit
    { s with dp := Function.update s.dp id (some ⟨0, 0, 0, 0, false⟩) } v id _ (lba / scPerDir)
    h.bytes h.dirs (Function.update_self ..)
    (fun id' c' hne hc' => h.listed.mem id' c' (hother hne hc'))
    (by
      intro e he hne
      obtain ⟨c, hc, hkey⟩ := h.listed.live e he
      exact ⟨c, by dsimp only; rw [Function.update_of_ne hne]; exact hc, hkey⟩)
    h.listed.once
    (fun e he heq => absurd heq (hno e he))
    (fun id' c' hne hc' => h.target id' c' (hother hne hc'))
    (fun id' c' hne hc' => h.sound id' c' (hother hne hc'))
  exact ⟨s', hs', hinv⟩

/-- A cursor is freed. -/
theorem DirInv.dpFree (h : DirInv v s) (hid : s.dp id ≠ none) :
  ∃ s', s.dpFree id = .ok s' ∧ DirInv v s'
  := by
  obtain ⟨c, hc⟩ := Option.ne_none_iff_exists'.mp hid
  have hfound : ∃ e ∈ s.findDp c.prevDirIdx, e.2 = id
    := ⟨_, mem_dropWhile (h.listed.mem id c hc) (by simp), rfl⟩
  have hkey : ∀ e ∈ s.dirDpTree, e.2 = id → e.1 = c.prevDirIdx := by
    intro e he heq
    obtain ⟨c', hc', hkey⟩ := h.listed.live e he
    rw [heq, hc] at hc'
    cases hc'
    apply hkey.symm
  have hback : ∀ {id' : ℕ} {c' : Cursor}, Function.update s.dp id none id' = some c' →
      id' ≠ id ∧ s.dp id' = some c' := by
    intro id' c' hc'
    by_cases heq : id' = id
    · rw [heq, Function.update_self] at hc'
      cases hc'
    · rw [Function.update_of_ne heq] at hc'
      use heq, hc'
  refine ⟨_, bind_eq_ok.mpr ⟨c, orThrow_eq_ok.mpr hc, bind_eq_ok.mpr
    ⟨(), require_eq_ok.mpr hfound, rfl⟩⟩, h.bytes, h.dirs, ⟨?_, ?_, nodup_eraseDp h.listed.once⟩,
    ?_, ?_⟩
  · intro id' c' hc'
    obtain ⟨hne, hc'⟩ := hback hc'
    apply (mem_eraseDp h.listed.once hkey _).mpr ⟨h.listed.mem id' c' hc', hne⟩
  · intro e he
    obtain ⟨he, hne⟩ := (mem_eraseDp h.listed.once hkey e).mp he
    obtain ⟨c', hc', hidx⟩ := h.listed.live e he
    use c', by dsimp only; rw [Function.update_of_ne hne]; exact hc', hidx
  · intro id' c' hc'
    apply h.target id' c' (hback hc').2
  · intro id' c' hc'
    apply h.sound id' c' (hback hc').2

/-- The indices after an insertion. -/
theorem DirInv.insertLba (h : DirInv v s) (d : ℕ) {o : ℕ} (ho : o < scPerDir) (hx : scIdx < 2 ^ 8) :
  ∃ s', s.insertLba d o scIdx = .ok s'
    ∧ DirInv (Function.update v d (Function.update (v d) o scIdx)) s' ∧ s'.infoSet = s.infoSet
  := by
  have hself : Function.update v d (Function.update (v d) o scIdx) d
      = Function.update (v d) o scIdx := Function.update_self ..
  have hdirs : ∀ d', Function.update s.scDir d (.canon d (Function.update (v d) o scIdx)) d'
      = .canon d' (Function.update v d (Function.update (v d) o scIdx) d') := by
    intro d'
    by_cases hd : d' = d
    · rw [hd, Function.update_self, hself]
    · rw [Function.update_of_ne hd, Function.update_of_ne hd]
      apply h.dirs d'
  have hbytes : ∀ d' o', Function.update v d (Function.update (v d) o scIdx) d' o' < 2 ^ 8 := by
    intro d' o'
    by_cases hd : d' = d
    · rw [hd, hself]
      apply update_lt (h.bytes d) hx o o'
    · rw [Function.update_of_ne hd]
      apply h.bytes d' o'
  obtain ⟨s', hs', hinv, -, hinfo, -⟩ := @DirInv.setReinit
    { s with scDir := Function.update s.scDir d (.canon d (Function.update (v d) o scIdx)) } _ d
    (fun c => o ≤ c.prevOffset) hbytes hdirs ⟨h.listed.mem, h.listed.live, h.listed.once⟩ h.target
    (by
      intro id c hc hflag
      obtain ⟨hoff, htable⟩ := h.sound id c hc hflag
      by_cases hd : c.prevDirIdx = d
      · by_cases hle : o ≤ c.prevOffset
        · right
          use hd, decide_eq_true hle
        · refine .inl ⟨hoff, ?_⟩
          rw [htable, hd, hself]
          congr 3
          apply part_congr
          intro i _ hi
          rw [Function.update_of_ne (by omega)]
      · refine .inl ⟨hoff, ?_⟩
        rw [htable, Function.update_of_ne hd])
  refine ⟨s', bind_eq_ok.mpr ⟨_, ?_, hs'⟩, hinv, hinfo⟩
  rw [h.dirs d]
  apply ShortcutDir.insertLba_canon ho (h.bytes d o) hx

/-- Lbas of one directory in order. -/
theorem pairwise_mod {lbas : List ℕ} {d : ℕ} (hasc : lbas.Pairwise (· < ·))
    (hdir : ∀ lba ∈ lbas, lba / scPerDir = d) :
  lbas.Pairwise fun a b => a % scPerDir < b % scPerDir
  := by
  apply hasc.imp_of_mem
  intro a b ha hb hlt
  have hda := hdir a ha
  have hdb := hdir b hb
  unfold scPerDir at *
  omega

/-- The indices after a bulk insertion. -/
theorem DirInv.insertLbaDp (h : DirInv v s) (d startIdx : ℕ) {lbaSet : List ℕ}
    (hx : scIdx < 2 ^ 8) (hasc : lbaSet.Pairwise (· < ·)) {lbas : List ℕ}
    (hlbas : lbas = (lbaSet.drop startIdx).takeWhile fun lba => lba / scPerDir = d) :
  ∃ s', s.insertLbaDp d scIdx startIdx lbaSet unlink = .ok (s', startIdx + lbas.length)
    ∧ DirInv (Function.update v d (takeAll scIdx unlink lbas (v d, s.infoSet)).1) s'
    ∧ s'.infoSet = (takeAll scIdx unlink lbas (v d, s.infoSet)).2
  := by
  have hdir : ∀ lba ∈ lbas, lba / scPerDir = d := by
    intro lba hlba
    rw [hlbas] at hlba
    apply of_decide_eq_true (List.mem_takeWhile_imp (p := fun lba => decide (lba / scPerDir = d)) hlba)
  have hsub : lbas.Sublist lbaSet := by
    rw [hlbas]
    apply (List.takeWhile_sublist _).trans (List.drop_sublist _ _)
  obtain ⟨o', hloop⟩ := @bulk_eq d scIdx unlink lbas hx (v d) s.infoSet 0 (h.bytes d)
    (fun _ _ => Nat.zero_le _) (pairwise_mod (hasc.sublist hsub) hdir)
  have hwlt := @takeAll_lt scIdx unlink lbas hx (v d, s.infoSet) (h.bytes d)
  generalize takeAll scIdx unlink lbas (v d, s.infoSet) = r at *
  have hself : Function.update v d r.1 d = r.1 := Function.update_self ..
  have hdirs : ∀ d', Function.update s.scDir d (.canon d r.1) d'
      = .canon d' (Function.update v d r.1 d') := by
    intro d'
    by_cases hd : d' = d
    · rw [hd, Function.update_self, hself]
    · rw [Function.update_of_ne hd, Function.update_of_ne hd]
      apply h.dirs d'
  have hbytes : ∀ d' o', Function.update v d r.1 d' o' < 2 ^ 8 := by
    intro d' o'
    by_cases hd : d' = d
    · rw [hd, hself]
      apply hwlt o'
    · rw [Function.update_of_ne hd]
      apply h.bytes d' o'
  obtain ⟨s', hs', hinv, -, hinfo, -⟩ := @DirInv.setReinit
    { s with scDir := Function.update s.scDir d (.canon d r.1), infoSet := r.2 } _ d
    (fun _ => true) hbytes hdirs ⟨h.listed.mem, h.listed.live, h.listed.once⟩ h.target
    (by
      intro id c hc hflag
      obtain ⟨hoff, htable⟩ := h.sound id c hc hflag
      by_cases hd : c.prevDirIdx = d
      · right
        exact ⟨hd, rfl⟩
      · refine .inl ⟨hoff, ?_⟩
        rw [htable, Function.update_of_ne hd])
  refine ⟨s', ?_, hinv, hinfo⟩
  unfold DirMaster.insertLbaDp
  rw [h.dirs d]
  have hidx : (ShortcutDir.canon d (v d)).idx = d := rfl
  dsimp only
  rw [hidx, ← hlbas]
  refine bind_eq_ok.mpr ⟨_, hloop, ?_⟩
  exact bind_eq_ok.mpr ⟨s', hs', rfl⟩

/-- One lba after another. -/
theorem DirInv.linkOne {d : ℕ} {lbas : List ℕ} (hx : scIdx < 2 ^ 8) :
  ∀ {v : ℕ → ℕ → ℕ} {s : DirMaster}, DirInv v s → (∀ lba ∈ lbas, lba / scPerDir = d) →
    ∃ s', lbas.foldlM (DirMaster.linkOne scIdx unlink) s = .ok s'
      ∧ DirInv (Function.update v d (takeAll scIdx unlink lbas (v d, s.infoSet)).1) s'
      ∧ s'.infoSet = (takeAll scIdx unlink lbas (v d, s.infoSet)).2
  := by
  induction lbas with
  | nil =>
      intro v s h _
      refine ⟨s, rfl, ?_, rfl⟩
      unfold takeAll
      rw [Function.update_eq_self]
      apply h
  | cons lba lbas ih =>
      intro v s h hdir
      have hd := hdir lba List.mem_cons_self
      have hlt : lba % scPerDir < scPerDir := Nat.mod_lt _ (by decide)
      have hquery : (s.scDir (lba / scPerDir)).queryLba (lba % scPerDir)
          = .ok (v d (lba % scPerDir)) := by
        rw [hd, h.dirs]
        apply ShortcutDir.queryLba_canon hlt
      generalize hinfo : (if unlink = true then unlinkInfo s.infoSet (v d (lba % scPerDir))
        else s.infoSet) = infoSet
      have hset : DirInv v { s with infoSet := infoSet }
        := ⟨h.bytes, h.dirs, ⟨h.listed.mem, h.listed.live, h.listed.once⟩, h.target, h.sound⟩
      obtain ⟨s₁, hs₁, hinv₁, hinfo₁⟩ := hset.insertLba d hlt hx
      have hlinked : DirInv (Function.update v d (Function.update (v d) (lba % scPerDir) scIdx))
          { s₁ with infoSet := linkInfo s₁.infoSet scIdx }
        := ⟨hinv₁.bytes, hinv₁.dirs, ⟨hinv₁.listed.mem, hinv₁.listed.live, hinv₁.listed.once⟩,
          hinv₁.target, hinv₁.sound⟩
      obtain ⟨s₂, hs₂, hinv₂, hinfo₂⟩ := ih hlinked fun lba' hlba' =>
        hdir lba' (List.mem_cons_of_mem lba hlba')
      have hone : DirMaster.linkOne scIdx unlink s lba
          = .ok { s₁ with infoSet := linkInfo s₁.infoSet scIdx } := by
        refine bind_eq_ok.mpr ⟨_, hquery, ?_⟩
        refine bind_eq_ok.mpr ⟨s₁, ?_, rfl⟩
        rw [hinfo, hd]
        apply hs₁
      rw [Function.update_self, Function.update_idem] at hinv₂
      rw [Function.update_self] at hinfo₂
      have htake : takeAll scIdx unlink (lba :: lbas) (v d, s.infoSet)
          = takeAll scIdx unlink lbas (Function.update (v d) (lba % scPerDir) scIdx,
              linkInfo s₁.infoSet scIdx) := by
        rw [hinfo₁, ← hinfo]
        rfl
      refine ⟨s₂, ?_, ?_, ?_⟩
      · rw [List.foldlM_cons]
        apply bind_eq_ok.mpr ⟨_, hone, hs₂⟩
      · rw [htake]
        apply hinv₂
      · rw [htake]
        apply hinfo₂

/-- One call. -/
theorem DirInv.step (h : DirInv v s) {op : DirOp} (hop : s.Allowed op) :
  ∃ s', s.step op = .ok s' ∧ ∃ v', DirInv v' s'
  := by
  cases op with
  | insert lba scIdx =>
      obtain ⟨s', hs', hinv, -⟩ := h.insertLba (lba / scPerDir) (Nat.mod_lt lba (by decide)) hop
      exact ⟨s', hs', _, hinv⟩
  | bulk target scIdx startIdx lbaSet unlink =>
      obtain ⟨s', hs', hinv, -⟩ := @DirInv.insertLbaDp s v scIdx unlink h target startIdx lbaSet hop.1
        hop.2 _ rfl
      exact ⟨s', congrArg (Prod.fst <$> ·) hs', _, hinv⟩
  | dpInit id lba =>
      obtain ⟨s', hs', hinv⟩ := h.dpInit hop lba
      exact ⟨s', hs', v, hinv⟩
  | dpGet id lba =>
      obtain ⟨s', hs', hinv⟩ := h.dpGetSc hop lba
      exact ⟨s', congrArg (Prod.fst <$> ·) hs', v, hinv⟩
  | dpFree id =>
      obtain ⟨s', hs', hinv⟩ := h.dpFree hop
      exact ⟨s', hs', v, hinv⟩

theorem dirInv_init :
  DirInv (fun _ _ => notAssignedSc) DirMaster.init
  where
    bytes _ _ := by decide
    dirs d := by
      unfold DirMaster.init
      dsimp only
      rw [ShortcutDir.init_eq]
      rfl
    listed := {
      mem := by simp [DirMaster.init]
      live := by simp [DirMaster.init]
      once := List.nodup_nil }
    target := by simp [DirMaster.init]
    sound := by simp [DirMaster.init]

end Cursors

/-- What the fast paths have to agree with: every cursor gives for every lba what a query gives,
and the bulk insertion of a list of lbas of one directory leaves the directories and the counts
that single insertions leave. -/
def DirMaster.Agrees (s : DirMaster) : Prop :=
  (∀ id lba, s.dp id ≠ none →
    ∃ s' sc, s.dpGetSc id lba = .ok (s', sc)
      ∧ (s.scDir (lba / scPerDir)).queryLba (lba % scPerDir) = .ok sc)
    ∧ ∀ (d scIdx : ℕ) (lbas : List ℕ) (unlink : Bool), scIdx < 2 ^ 8 → lbas.Pairwise (· < ·) →
      (∀ lba ∈ lbas, lba / scPerDir = d) →
      ∃ s₁ s₂, s.insertLbaDp d scIdx 0 lbas unlink = .ok (s₁, lbas.length)
        ∧ lbas.foldlM (DirMaster.linkOne scIdx unlink) s = .ok s₂
        ∧ s₁.scDir = s₂.scDir ∧ s₁.infoSet = s₂.infoSet

theorem DirInv.agrees {v : ℕ → ℕ → ℕ} {s : DirMaster} (h : DirInv v s) :
  s.Agrees
  := by
  constructor
  · intro id lba hid
    obtain ⟨s', hs', -⟩ := h.dpGetSc hid lba
    refine ⟨s', _, hs', ?_⟩
    rw [h.dirs]
    apply ShortcutDir.queryLba_canon (Nat.mod_lt lba (by decide))
  · intro d scIdx lbas unlink hx hasc hdir
    have hlbas : lbas = (lbas.drop 0).takeWhile fun lba => lba / scPerDir = d := by
      rw [List.drop_zero]
      symm
      apply List.takeWhile_eq_self_iff.mpr
      intro lba hlba
      apply decide_eq_true (hdir lba hlba)
    obtain ⟨s₁, hs₁, hinv₁, hinfo₁⟩ := @DirInv.insertLbaDp s v scIdx unlink h d 0 lbas hx hasc lbas hlbas
    obtain ⟨s₂, hs₂, hinv₂, hinfo₂⟩ := @DirInv.linkOne scIdx unlink d lbas hx v s h hdir
    rw [Nat.zero_add] at hs₁
    refine ⟨s₁, s₂, hs₁, hs₂, ?_, ?_⟩
    · funext d'
      rw [hinv₁.dirs, hinv₂.dirs]
    · rw [hinfo₁, hinfo₂]

/-- After every sequence of single insertions, bulk insertions and calls of cursors the fast
paths agree with the plain ones. -/
theorem dirMaster_agrees (ops : List DirOp)
    (hops : Guarded DirMaster.step DirMaster.Allowed DirMaster.init ops) :
  ∃ s, run DirMaster.step DirMaster.init ops = .ok s ∧ s.Agrees
  := by
  obtain ⟨s, hrun, v, hinv⟩ := run_progress (fun _ s => ∃ v, DirInv v s)
    (fun _ s op ⟨v, hinv⟩ hop => hinv.step hop) (h := []) ⟨_, dirInv_init⟩ hops
  exact ⟨s, hrun, hinv.agrees⟩

/-- Two cursors, one of which stands behind an insertion. -/
def twoCursors : List DirOp :=
  [.dpInit 0 0, .dpInit 1 0, .dpGet 0 9, .dpGet 1 4, .insert 6 3, .dpGet 0 9,
    .bulk 0 2 0 [4, 5, 300] true, .dpGet 1 6]

theorem dirMaster_agrees_twoCursors :
  ∃ s, run DirMaster.step DirMaster.init twoCursors = .ok s ∧ s.Agrees
  := by
  apply dirMaster_agrees
  decide

end AppL
