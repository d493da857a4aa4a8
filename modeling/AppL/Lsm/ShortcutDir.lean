import Mathlib.Logic.Function.Basic
import AppL.Lib.RunLength
import AppL.Lsm.Shortcut

/-!
# Compressed directories of the shortcut

With `SC_MEM_OPT` the shortcut of 256 lbas is kept in a directory: a bitmap with a bit for every
offset at which the index changes, and a table of the indices there.
-/

namespace AppL

open Transition RunLength

/-- `NOT_ASSIGNED_SC`. -/
def notAssignedSc : ℕ := 255

/-- `memmove` inside of a buffer. -/
def memmove {α : Type} (buf : List α) (dst src num : ℕ) : List α :=
  buf.take dst ++ (buf.drop src).take num ++ buf.drop (dst + num)

/-- `shortcut_dir`. -/
structure ShortcutDir where
  bmap : ℕ → Bool
  mapNum : ℕ
  table : List ℕ
  idx : ℕ

/-- A number that indexes a table. -/
def tableIndex (i : ℤ) : Except Abort ℕ := do
  require .outOfBounds (0 ≤ i)
  return i.toNat

namespace ShortcutDir

variable (dir : ShortcutDir)

/-- `__dir_map_insert`; the table has one byte more, of any value. -/
def dirMapInsert (index shortcutIdx : ℕ) : Except Abort ShortcutDir := do
  require .outOfBounds (index ≤ dir.mapNum)
  let table := dir.table ++ [0]
  let table := if dir.mapNum ≠ 0 then
      memmove table (index + 1) index (dir.mapNum + 1 - index - 1)
    else
      table
  return { dir with table := table.set index (shortcutIdx % 2 ^ 8), mapNum := dir.mapNum + 1 }

/-- `__dir_map_update`. -/
def dirMapUpdate (index shortcutIdx : ℕ) : Except Abort ShortcutDir := do
  require .outOfBounds (index < dir.mapNum)
  return { dir with table := dir.table.set index (shortcutIdx % 2 ^ 8) }

/-- `__dir_map_erase`. -/
def dirMapErase (index : ℕ) : Except Abort ShortcutDir := do
  require .outOfBounds (index < dir.mapNum)
  if index ≠ dir.mapNum - 1 then
    let lastShortcut ← orThrow .outOfBounds dir.table[dir.mapNum - 1]?
    let table := dir.table.take (dir.mapNum - 1)
    let mapNum := dir.mapNum - 1
    let table := memmove table index (index + 1) (mapNum - index - 1)
    return { dir with table := table.set (mapNum - 1) lastShortcut, mapNum := mapNum }
  else
    return { dir with table := dir.table.take (dir.mapNum - 1), mapNum := dir.mapNum - 1 }

/-- `__dir_map_query`. -/
def dirMapQuery (index : ℕ) : Except Abort ℕ := orThrow .outOfBounds dir.table[index]?

/-- `bitmap_set`. -/
def bitmapSet (offset : ℕ) : ShortcutDir :=
  { dir with bmap := Function.update dir.bmap offset true }

/-- `bitmap_unset`. -/
def bitmapUnset (offset : ℕ) : ShortcutDir :=
  { dir with bmap := Function.update dir.bmap offset false }

/-- `sc_dir_init`. -/
def init (idx : ℕ) : Except Abort ShortcutDir := do
  let dir : ShortcutDir := ⟨fun _ => false, 0, [], idx⟩
  let dir ← dir.dirMapInsert 0 notAssignedSc
  return dir.bitmapSet 0

/-- The part of `compression_target` that looks at the next offset. -/
def compressNext (targetIdx offset scIdx originalValue : ℕ) : Except Abort ShortcutDir :=
  if offset ≠ scPerDir - 1 then
    if dir.bmap (offset + 1) then do
      let next ← dir.dirMapQuery (targetIdx + 1)
      if next = scIdx then
        (dir.bitmapUnset (offset + 1)).dirMapErase (targetIdx + 1)
      else
        return dir
    else
      (dir.bitmapSet (offset + 1)).dirMapInsert (targetIdx + 1) originalValue
  else
    return dir

/-- The previous entry of the table has the index. -/
def samePrev (targetIdx scIdx : ℕ) : Except Abort Bool :=
  if targetIdx ≠ 0 then do
    let prev ← dir.dirMapQuery (targetIdx - 1)
    return decide (prev = scIdx)
  else
    return false

/-- The part of `compression_target` that looks at the offset itself. -/
def compressHere (targetIdx offset scIdx : ℕ) : Except Abort ShortcutDir := do
  let same ← dir.samePrev targetIdx scIdx
  if same ∧ dir.bmap offset then
    (dir.bitmapUnset offset).dirMapErase targetIdx
  else if dir.bmap offset then
    dir.dirMapUpdate targetIdx scIdx
  else
    (dir.bitmapSet offset).dirMapInsert (targetIdx + 1) scIdx

/-- `compression_target`. -/
def compressionTarget (targetIdx offset scIdx : ℕ) : Except Abort ShortcutDir := do
  let originalValue ← dir.dirMapQuery targetIdx
  if originalValue ≠ scIdx then
    let dir ← dir.compressNext targetIdx offset scIdx originalValue
    dir.compressHere targetIdx offset scIdx
  else
    return dir

/-- A loop over offsets that counts the bits. -/
def countBits (t : ℤ) (offsets : List ℕ) : ℤ :=
  offsets.foldl (fun t i => if dir.bmap i then t + 1 else t) t

/-- The changes of a directory by `sc_dir_insert_lba`. -/
def insertLba (offset scIdx : ℕ) : Except Abort ShortcutDir := do
  let targetIdx ← tableIndex (dir.countBits (-1) (List.range (offset + 1)))
  dir.compressionTarget targetIdx offset scIdx

/-- `sc_dir_query_lba`. -/
def queryLba (offset : ℕ) : Except Abort ℕ := do
  let targetIdx ← tableIndex (dir.countBits (-1) (List.range (offset + 1)))
  dir.dirMapQuery targetIdx

/-! ### Edits of the table -/

section Edits

variable {dir} {l m : List ℕ} {a x : ℕ}

/-- An entry is put between two parts of the table. -/
theorem dirMapInsert_eq (htable : dir.table = l ++ m) (hnum : dir.mapNum = dir.table.length)
    (hx : x < 2 ^ 8) :
  dir.dirMapInsert l.length x
    = .ok { dir with table := l ++ x :: m, mapNum := (l ++ x :: m).length }
  := by
  have hlen : dir.mapNum = l.length + m.length := by
    rw [hnum, htable, List.length_append]
  refine bind_eq_ok.mpr ⟨(), require_eq_ok.mpr (by omega), ?_⟩
  have hmove : (if dir.mapNum ≠ 0 then
        memmove (dir.table ++ [0]) (l.length + 1) l.length (dir.mapNum + 1 - l.length - 1)
      else dir.table ++ [0]).set l.length (x % 2 ^ 8) = l ++ x :: m := by
    rw [Nat.mod_eq_of_lt hx, htable, hlen]
    split
    · obtain ⟨b, r, hr⟩ : ∃ b r, m ++ [0] = b :: r
        := List.exists_cons_of_ne_nil (by simp)
      have hcount : l.length + m.length + 1 - l.length - 1 = m.length := by omega
      rw [hcount]
      unfold memmove
      rw [List.append_assoc l, List.take_length_add_append, List.drop_left, hr]
      have htake : (b :: r).take m.length = m := by
        rw [← hr, List.take_left]
      have hdrop : (l ++ b :: r).drop (l.length + 1 + m.length) = [] := by
        rw [← hr]
        apply List.drop_eq_nil_of_le
        simp
        omega
      rw [htake, hdrop, List.append_nil, List.append_assoc]
      simp
    · rename_i hzero
      obtain ⟨rfl, rfl⟩ : l = [] ∧ m = [] := by
        constructor
        · apply List.eq_nil_of_length_eq_zero
          omega
        · apply List.eq_nil_of_length_eq_zero
          omega
      rfl
  dsimp only at hmove ⊢
  rw [hmove]
  congr 2
  rw [hlen, List.length_append, List.length_cons]
  omega

/-- An entry is taken out of the table. -/
theorem dirMapErase_eq (htable : dir.table = l ++ a :: m) (hnum : dir.mapNum = dir.table.length) :
  dir.dirMapErase l.length = .ok { dir with table := l ++ m, mapNum := (l ++ m).length }
  := by
  have hlen : dir.mapNum = l.length + m.length + 1 := by
    rw [hnum, htable, List.length_append, List.length_cons]
    omega
  refine bind_eq_ok.mpr ⟨(), require_eq_ok.mpr (by omega), ?_⟩
  have hmap : dir.mapNum - 1 = (l ++ m).length := by
    rw [hlen, List.length_append]
    omega
  split
  · rename_i hne
    obtain ⟨b, c, rfl⟩ : ∃ b c, m = b ++ [c] := by
      refine ⟨m.dropLast, m.getLast ?_, (List.dropLast_append_getLast _).symm⟩
      rintro rfl
      simp only [List.length_nil] at hlen
      omega
    simp only [List.length_append, List.length_singleton] at hlen
    have hcat : dir.table = (l ++ a :: b) ++ [c] := by
      rw [htable]
      simp
    have hend : dir.mapNum - 1 = (l ++ a :: b).length := by
      rw [hlen]
      simp
    have hlast : dir.table[dir.mapNum - 1]? = some c := by
      rw [hcat, hend]
      apply List.getElem?_concat_length
    refine bind_eq_ok.mpr ⟨c, orThrow_eq_ok.mpr hlast, ?_⟩
    dsimp only
    have hmove : (memmove (dir.table.take (dir.mapNum - 1)) l.length (l.length + 1)
        (dir.mapNum - 1 - l.length - 1)).set (dir.mapNum - 1 - 1) c = l ++ (b ++ [c]) := by
      have htake : dir.table.take (dir.mapNum - 1) = l ++ a :: b := by
        rw [hend, hcat, List.take_left]
      have hcount : dir.mapNum - 1 - l.length - 1 = b.length := by omega
      have hat : dir.mapNum - 1 - 1 = (l ++ b).length := by
        rw [hlen, List.length_append]
        omega
      rw [htake, hcount, hat]
      unfold memmove
      rw [List.take_left, List.drop_length_add_append, List.drop_length_add_append]
      obtain ⟨d, hd⟩ : ∃ d, (a :: b).drop b.length = [d] := by
        apply List.length_eq_one_iff.mp
        simp
      rw [hd]
      simp
    rw [hmove, hmap]
    rfl
  · rename_i heq
    have hnil : m = [] := by
      apply List.eq_nil_of_length_eq_zero
      omega
    subst hnil
    rw [hmap]
    congr 2
    rw [htable, List.append_nil, List.take_left]

theorem dirMapUpdate_eq (htable : dir.table = l ++ a :: m) (hnum : dir.mapNum = dir.table.length)
    (hx : x < 2 ^ 8) :
  dir.dirMapUpdate l.length x = .ok { dir with table := l ++ x :: m }
  := by
  have hlt : l.length < dir.mapNum := by
    rw [hnum, htable, List.length_append, List.length_cons]
    omega
  refine bind_eq_ok.mpr ⟨(), require_eq_ok.mpr hlt, ?_⟩
  rw [Nat.mod_eq_of_lt hx, htable, List.set_append_right _ _ le_rfl, Nat.sub_self]
  rfl

end Edits

/-! ### The directory of a function -/

/-- The directory of the indices `v`. -/
def canon (idx : ℕ) (v : ℕ → ℕ) : ShortcutDir where
  bmap i := decide (i < scPerDir) && isHead v i
  mapNum := (part v 0 scPerDir).length
  table := part v 0 scPerDir
  idx := idx

section Canon

variable {dir} {idx o x : ℕ} {v : ℕ → ℕ}

theorem countBits_eq (t : ℤ) (l : List ℕ) :
  dir.countBits t l = t + l.countP dir.bmap
  := by
  unfold countBits
  induction l generalizing t with
  | nil => simp
  | cons i l ih =>
      rw [List.foldl_cons, ih, List.countP_cons]
      split
      · push_cast
        omega
      · simp

/-- The bits up to an offset. -/
theorem countP_canon (ho : o ≤ scPerDir) :
  (List.range o).countP (canon idx v).bmap = (part v 0 o).length
  := by
  rw [length_part, ← List.range_eq_range']
  apply List.countP_congr
  intro i hi
  have hlt := List.mem_range.mp hi
  simp only [canon, Bool.and_eq_true, decide_eq_true_eq]
  constructor
  · exact fun h => h.2
  · exact fun h => ⟨by omega, h⟩

theorem length_part_pos (v : ℕ → ℕ) (o : ℕ) :
  0 < (part v 0 (o + 1)).length
  := by
  apply List.length_pos_of_mem
  apply List.mem_of_getLast? (getLast?_part v o)

theorem tableIndex_part (v : ℕ → ℕ) (o : ℕ) :
  tableIndex (-1 + (part v 0 (o + 1)).length) = .ok ((part v 0 (o + 1)).length - 1)
  := by
  have hpos := length_part_pos v o
  have hge : (0 : ℤ) ≤ -1 + ((part v 0 (o + 1)).length : ℤ) := by omega
  have hnat : ((-1 : ℤ) + ((part v 0 (o + 1)).length : ℤ)).toNat = (part v 0 (o + 1)).length - 1 := by
    omega
  refine bind_eq_ok.mpr ⟨(), require_eq_ok.mpr hge, ?_⟩
  rw [hnat]
  rfl

/-- The index of the entry of an offset. -/
theorem tableIndex_canon (ho : o < scPerDir) :
  tableIndex ((canon idx v).countBits (-1) (List.range (o + 1)))
    = .ok ((part v 0 (o + 1)).length - 1)
  := by
  rw [countBits_eq, countP_canon ho]
  apply tableIndex_part v o

/-- The entries up to an offset and after it. -/
theorem part_split (v : ℕ → ℕ) (ho : o < scPerDir) :
  part v 0 scPerDir = part v 0 (o + 1) ++ part v (o + 1) (scPerDir - 1 - o)
  := by
  have hsum : scPerDir = (o + 1) + (scPerDir - 1 - o) := by omega
  conv_lhs => rw [hsum]
  rw [← part_append, Nat.zero_add]

theorem dirMapQuery_canon (ho : o < scPerDir) :
  (canon idx v).dirMapQuery ((part v 0 (o + 1)).length - 1) = .ok (v o)
  := by
  have hsum : scPerDir = (o + 1) + (scPerDir - 1 - o) := by omega
  apply orThrow_eq_ok.mpr
  unfold canon
  dsimp only
  rw [hsum]
  apply getElem?_part v o _

theorem queryLba_canon (ho : o < scPerDir) :
  (canon idx v).queryLba o = .ok (v o)
  := by
  apply bind_eq_ok.mpr ⟨_, tableIndex_canon ho, dirMapQuery_canon ho⟩

/-- The next offset after a change at `o`. -/
theorem compressNext_eq {p : List ℕ} (hbit : o + 1 < scPerDir → dir.bmap (o + 1) = isHead v (o + 1))
    (htable : dir.table = p ++ part v (o + 1) (scPerDir - 1 - o))
    (hnum : dir.mapNum = dir.table.length) (ho : o < scPerDir) (hne : v o ≠ x) (hv : v o < 2 ^ 8)
    (hp : 0 < p.length) :
  dir.compressNext (p.length - 1) o x (v o)
    = .ok { dir with
        bmap := fun i => if i = o + 1 ∧ i < scPerDir then isHead (Function.update v o x) i
          else dir.bmap i
        table := p ++ part (Function.update v o x) (o + 1) (scPerDir - 1 - o)
        mapNum := (p ++ part (Function.update v o x) (o + 1) (scPerDir - 1 - o)).length }
  := by
  have hnext : p.length - 1 + 1 = p.length := by omega
  unfold compressNext
  rw [hnext]
  split
  · rename_i hlast
    have hlt : o + 1 < scPerDir := by omega
    have hsum : scPerDir - 1 - o = 1 + (scPerDir - 2 - o) := by omega
    have hrest : part (Function.update v o x) (o + 1 + 1) (scPerDir - 2 - o)
        = part v (o + 1 + 1) (scPerDir - 2 - o) := by
      apply part_congr
      intro i hi _
      rw [Function.update_of_ne (by omega)]
    have hself : Function.update v o x o = x := Function.update_self o x v
    have hself' : Function.update v o x (o + 1) = v (o + 1) := Function.update_of_ne (by omega) x v
    have hhead : isHead (Function.update v o x) (o + 1) = true ↔ v (o + 1) ≠ x := by
      rw [isHead_succ, hself, hself']
    have hbits : ∀ b, isHead (Function.update v o x) (o + 1) = b →
        (fun i => if i = o + 1 ∧ i < scPerDir then isHead (Function.update v o x) i
          else dir.bmap i) = Function.update dir.bmap (o + 1) b := by
      intro b hb
      funext i
      rw [Function.update_apply]
      by_cases hi : i = o + 1
      · rw [if_pos ⟨hi, by omega⟩, if_pos hi, hi, hb]
      · rw [if_neg (fun h => hi h.1), if_neg hi]
    rw [hbit hlt]
    rw [hsum, ← part_append, part_one] at htable
    rw [hsum, ← part_append, part_one, hrest, hself']
    cases hold : isHead v (o + 1) with
    | true =>
        rw [hold, if_pos rfl] at htable
        rw [if_pos rfl]
        have hquery : dir.dirMapQuery p.length = .ok (v (o + 1)) := by
          apply orThrow_eq_ok.mpr
          rw [htable]
          simp
        refine bind_eq_ok.mpr ⟨_, hquery, ?_⟩
        split
        · rename_i heq
          have hfalse : isHead (Function.update v o x) (o + 1) = false := by
            apply Bool.eq_false_iff.mpr
            rw [Ne, hhead]
            exact fun h => h heq
          rw [hbits _ hfalse, hfalse]
          exact dirMapErase_eq htable hnum
        · rename_i hdiff
          rw [hbits _ (hhead.mpr hdiff), hhead.mpr hdiff, if_pos rfl, ← htable, ← hnum]
          have hsame : Function.update dir.bmap (o + 1) true = dir.bmap := by
            rw [← hold, ← hbit hlt, Function.update_eq_self]
          rw [hsame]
          rfl
    | false =>
        have heq : v (o + 1) = v o := by
          by_contra h
          rw [(isHead_succ v o).mpr h] at hold
          cases hold
        have htrue : isHead (Function.update v o x) (o + 1) = true := by
          rw [hhead, heq]
          apply hne
        rw [hold, if_neg Bool.false_ne_true, List.nil_append] at htable
        rw [if_neg Bool.false_ne_true, hbits _ htrue, htrue, if_pos rfl, heq]
        exact dirMapInsert_eq htable hnum hv
  · rename_i hlast
    have hzero : scPerDir - 1 - o = 0 := by omega
    rw [hzero, part_zero] at htable
    rw [hzero, part_zero]
    have hbits : (fun i => if i = o + 1 ∧ i < scPerDir then isHead (Function.update v o x) i
          else dir.bmap i) = dir.bmap := by
      funext i
      apply if_neg (by omega)
    rw [hbits, ← htable, ← hnum]
    rfl

/-- The directory after a change at `o`. -/
theorem canon_update (ho : o < scPerDir) {p : List ℕ}
    (hp : p = part v 0 o ++ if isHead (Function.update v o x) o then [x] else []) :
  canon idx (Function.update v o x) = {
    bmap := Function.update
      (fun i => if i = o + 1 ∧ i < scPerDir then isHead (Function.update v o x) i
        else (canon idx v).bmap i) o (isHead (Function.update v o x) o)
    mapNum := (p ++ part (Function.update v o x) (o + 1) (scPerDir - 1 - o)).length
    table := p ++ part (Function.update v o x) (o + 1) (scPerDir - 1 - o)
    idx := idx }
  := by
  have hbefore : part (Function.update v o x) 0 o = part v 0 o := by
    apply part_congr
    intro i _ hi
    rw [Function.update_of_ne (by omega)]
  have htable : part (Function.update v o x) 0 scPerDir
      = p ++ part (Function.update v o x) (o + 1) (scPerDir - 1 - o) := by
    rw [part_split _ ho, part_succ, hbefore, Nat.zero_add, Function.update_self, hp]
  unfold canon
  rw [htable]
  congr 1
  funext i
  rw [Function.update_apply]
  by_cases hi : i = o
  · rw [if_pos hi, hi, decide_eq_true ho, Bool.true_and]
  · rw [if_neg hi]
    by_cases hi' : i = o + 1
    · by_cases hlt : i < scPerDir
      · rw [if_pos ⟨hi', hlt⟩, decide_eq_true hlt, Bool.true_and]
      · rw [if_neg fun h => hlt h.2]
        dsimp only
        rw [decide_eq_false hlt, Bool.false_and, Bool.false_and]
    · rw [if_neg fun h => hi' h.1]
      unfold isHead
      rw [Function.update_of_ne hi]
      by_cases hzero : i = 0
      · rw [hzero]
        simp
      · rw [Function.update_of_ne (by omega)]

/-- The last entry before an offset. -/
theorem samePrev_eq {q : List ℕ} {n : ℕ} (htable : dir.table = part v 0 (n + 1) ++ q) :
  dir.samePrev (part v 0 (n + 1)).length x = .ok (decide (v n = x))
  := by
  have hpos := length_part_pos v n
  have hlast := getLast?_part v n
  have hquery : dir.dirMapQuery ((part v 0 (n + 1)).length - 1) = .ok (v n) := by
    apply orThrow_eq_ok.mpr
    rw [List.getLast?_eq_getElem?] at hlast
    rw [htable, List.getElem?_append_left (by omega)]
    apply hlast
  unfold samePrev
  rw [if_pos (by omega)]
  exact bind_eq_ok.mpr ⟨_, hquery, rfl⟩

/-- The offset itself. -/
theorem compressHere_eq {q : List ℕ} (hbit : dir.bmap o = isHead v o)
    (htable : dir.table = part v 0 (o + 1) ++ q) (hnum : dir.mapNum = dir.table.length)
    (hne : v o ≠ x) (hx : x < 2 ^ 8) :
  dir.compressHere ((part v 0 (o + 1)).length - 1) o x
    = .ok { dir with
        bmap := Function.update dir.bmap o (isHead (Function.update v o x) o)
        table := part v 0 o ++ (if isHead (Function.update v o x) o then [x] else []) ++ q
        mapNum := (part v 0 o ++ (if isHead (Function.update v o x) o then [x] else [])
          ++ q).length }
  := by
  rw [part_succ, Nat.zero_add] at *
  unfold compressHere
  rw [hbit]
  cases hold : isHead v o with
  | true =>
      rw [hold, if_pos rfl, List.append_assoc] at htable
      rw [if_pos rfl, List.length_append, List.length_singleton, Nat.add_sub_cancel]
      rw [hold] at hbit
      have hupdate : dir.dirMapUpdate (part v 0 o).length x
          = .ok { dir with
              bmap := Function.update dir.bmap o true
              table := part v 0 o ++ [x] ++ q
              mapNum := (part v 0 o ++ [x] ++ q).length } := by
        have hlen : (part v 0 o ++ [x] ++ q).length = dir.mapNum := by
          rw [hnum, htable]
          simp
        have hsame : Function.update dir.bmap o true = dir.bmap := by
          rw [← hbit, Function.update_eq_self]
        rw [dirMapUpdate_eq htable hnum hx, hsame, hlen, List.append_assoc]
        rfl
      cases o with
      | zero =>
          refine bind_eq_ok.mpr ⟨false, rfl, ?_⟩
          rw [if_neg (by simp), if_pos rfl, isHead_zero, if_pos rfl]
          apply hupdate
      | succ n =>
          have hhead : isHead (Function.update v (n + 1) x) (n + 1) = true ↔ x ≠ v n := by
            rw [isHead_succ, Function.update_self, Function.update_of_ne (by omega)]
          refine bind_eq_ok.mpr ⟨_, samePrev_eq htable, ?_⟩
          by_cases hsame : v n = x
          · have hfalse : isHead (Function.update v (n + 1) x) (n + 1) = false := by
              apply Bool.eq_false_iff.mpr
              rw [Ne, hhead]
              exact fun h => h hsame.symm
            rw [if_pos ⟨decide_eq_true hsame, rfl⟩, hfalse, if_neg Bool.false_ne_true,
              List.append_nil]
            exact dirMapErase_eq htable hnum
          · rw [if_neg (fun h => hsame (of_decide_eq_true h.1)), if_pos rfl,
              hhead.mpr (Ne.symm hsame), if_pos rfl]
            apply hupdate
  | false =>
      rw [hold, if_neg Bool.false_ne_true, List.append_nil] at htable
      rw [if_neg Bool.false_ne_true, List.append_nil]
      cases o with
      | zero =>
          rw [isHead_zero] at hold
          cases hold
      | succ n =>
          have heq : v (n + 1) = v n := by
            by_contra h
            rw [(isHead_succ v n).mpr h] at hold
            cases hold
          have htrue : isHead (Function.update v (n + 1) x) (n + 1) = true := by
            rw [isHead_succ, Function.update_self, Function.update_of_ne (by omega), ← heq]
            apply Ne.symm hne
          have hpos := length_part_pos v n
          obtain ⟨b, hb⟩ : ∃ b, dir.samePrev ((part v 0 (n + 1)).length - 1) x = .ok b := by
            unfold samePrev
            split
            · have hlt : (part v 0 (n + 1)).length - 1 - 1 < dir.table.length := by
                rw [htable, List.length_append]
                omega
              exact ⟨_, bind_eq_ok.mpr
                ⟨_, orThrow_eq_ok.mpr (List.getElem?_eq_getElem hlt), rfl⟩⟩
            · exact ⟨false, rfl⟩
          have hnext : (part v 0 (n + 1)).length - 1 + 1 = (part v 0 (n + 1)).length := by omega
          refine bind_eq_ok.mpr ⟨b, hb, ?_⟩
          rw [if_neg (fun h => Bool.false_ne_true h.2), if_neg Bool.false_ne_true, htrue,
            if_pos rfl, hnext, List.append_assoc]
          exact dirMapInsert_eq htable hnum hx

/-- `compression_target` changes the index at one offset. -/
theorem compressionTarget_canon (ho : o < scPerDir) (hv : v o < 2 ^ 8) (hx : x < 2 ^ 8) :
  (canon idx v).compressionTarget ((part v 0 (o + 1)).length - 1) o x
    = .ok (canon idx (Function.update v o x))
  := by
  refine bind_eq_ok.mpr ⟨v o, dirMapQuery_canon ho, ?_⟩
  by_cases hne : v o = x
  · rw [if_neg fun h => h hne, ← hne, Function.update_eq_self]
    rfl
  · rw [if_pos hne]
    have hbit : ∀ i, i < scPerDir → (canon idx v).bmap i = isHead v i := by
      intro i hlt
      unfold canon
      dsimp only
      rw [decide_eq_true hlt, Bool.true_and]
    have hnext := compressNext_eq (hbit (o + 1)) (part_split v ho) rfl ho hne hv
      (length_part_pos v o)
    refine bind_eq_ok.mpr ⟨_, hnext, ?_⟩
    rw [canon_update ho rfl]
    apply compressHere_eq
    · dsimp only
      rw [if_neg (by omega), hbit o ho]
    · rfl
    · rfl
    · apply hne
    · apply hx

/-- One insertion. -/
theorem insertLba_canon (ho : o < scPerDir) (hv : v o < 2 ^ 8) (hx : x < 2 ^ 8) :
  (canon idx v).insertLba o x = .ok (canon idx (Function.update v o x))
  := bind_eq_ok.mpr ⟨_, tableIndex_canon ho, compressionTarget_canon ho hv hx⟩

theorem init_eq (idx : ℕ) :
  init idx = .ok (canon idx fun _ => notAssignedSc)
  := by
  have htable : part (fun _ => notAssignedSc) 0 scPerDir = [notAssignedSc]
    := part_const notAssignedSc 255
  have hbits : (fun i => decide (i < scPerDir) && isHead (fun _ => notAssignedSc) i)
      = Function.update (fun _ => false) 0 true := by
    funext i
    cases i with
    | zero => rfl
    | succ i => simp [isHead]
  unfold canon
  rw [htable, hbits]
  rfl

end Canon

/-! ### Insertions one after another -/

/-- An insertion of an index at an offset. -/
def insertStep (dir : ShortcutDir) (op : ℕ × ℕ) : Except Abort ShortcutDir :=
  dir.insertLba op.1 op.2

/-- The index of the last insertion at an offset. -/
def lastIdx (ops : List (ℕ × ℕ)) (o : ℕ) : ℕ :=
  ((ops.reverse.find? fun op => op.1 = o).map Prod.snd).getD notAssignedSc

theorem lastIdx_concat (ops : List (ℕ × ℕ)) (op : ℕ × ℕ) :
  lastIdx (ops ++ [op]) = Function.update (lastIdx ops) op.1 op.2
  := by
  funext o
  rw [Function.update_apply]
  unfold lastIdx
  rw [List.reverse_append, List.reverse_singleton, List.singleton_append, List.find?_cons]
  by_cases h : op.1 = o
  · rw [decide_eq_true h, if_pos h.symm]
    rfl
  · rw [decide_eq_false h, if_neg (Ne.symm h)]

/-- The indices are bytes. -/
theorem lastIdx_lt {ops : List (ℕ × ℕ)} (hops : ∀ op ∈ ops, op.2 < 2 ^ 8) (o : ℕ) :
  lastIdx ops o < 2 ^ 8
  := by
  unfold lastIdx
  cases hfind : ops.reverse.find? fun op => op.1 = o with
  | none => decide
  | some op => apply hops op (List.mem_reverse.mp (List.mem_of_find?_eq_some hfind))

/-- A directory refines the plain array: a query gives the index of the last insertion.  The
first bit stays set, there are as many bits as entries, and neighbouring entries differ. -/
theorem insertLba_refines (idx : ℕ) (ops : List (ℕ × ℕ))
    (hops : ∀ op ∈ ops, op.1 < scPerDir ∧ op.2 < 2 ^ 8) :
  ∃ dir, (init idx >>= fun dir => run insertStep dir ops) = .ok dir
    ∧ (∀ o < scPerDir, dir.queryLba o = .ok (lastIdx ops o))
    ∧ dir.bmap 0 = true
    ∧ (List.range scPerDir).countP dir.bmap = dir.mapNum
    ∧ dir.table.IsChain (· ≠ ·)
  := by
  have hguard : Guarded insertStep (fun _ op => op.1 < scPerDir ∧ op.2 < 2 ^ 8)
      (canon idx fun _ => notAssignedSc) ops
    := guarded_of_forall (fun op hop _ => hops op hop) _
  have hkeep : ∀ (h : List (ℕ × ℕ)) (dir : ShortcutDir) (op : ℕ × ℕ),
      (∀ op ∈ h, op.2 < 2 ^ 8) ∧ dir = canon idx (lastIdx h) → op.1 < scPerDir ∧ op.2 < 2 ^ 8 →
      ∃ dir', insertStep dir op = .ok dir'
        ∧ (∀ op' ∈ h ++ [op], op'.2 < 2 ^ 8) ∧ dir' = canon idx (lastIdx (h ++ [op])) := by
    rintro h dir op ⟨hbytes, rfl⟩ ⟨ho, hx⟩
    refine ⟨_, insertLba_canon ho (lastIdx_lt hbytes _) hx, ?_, ?_⟩
    · intro op' hop'
      obtain hop' | hop' := List.mem_append.mp hop'
      · apply hbytes op' hop'
      · rw [List.mem_singleton.mp hop']
        apply hx
    · rw [lastIdx_concat]
  obtain ⟨dir, hrun, -, hdir⟩ := run_progress
    (fun h dir => (∀ op ∈ h, op.2 < 2 ^ 8) ∧ dir = canon idx (lastIdx h)) hkeep
    (h := []) ⟨by simp, rfl⟩ hguard
  rw [List.nil_append] at hdir
  use dir, bind_eq_ok.mpr ⟨_, init_eq idx, hrun⟩
  rw [hdir]
  refine ⟨fun o ho => queryLba_canon ho, ?_, countP_canon le_rfl, isChain_part _ _⟩
  apply isHead_zero (lastIdx ops)

/-- Two runs of offsets grow together. -/
theorem insertLba_refines_joined :
  ∃ dir, (init 0 >>= fun dir => run insertStep dir [(3, 7), (5, 7), (4, 7)]) = .ok dir
    ∧ dir.queryLba 4 = .ok 7 ∧ dir.queryLba 6 = .ok notAssignedSc
  := by
  obtain ⟨dir, hrun, hquery, -⟩ := insertLba_refines 0 [(3, 7), (5, 7), (4, 7)] (by decide)
  use dir, hrun, hquery 4 (by decide), hquery 6 (by decide)

end ShortcutDir

end AppL
