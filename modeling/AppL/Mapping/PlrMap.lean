import AppL.Plr.Original
import AppL.Mapping.GuardBf

/-!
# Learned index

The mapping function of type `PLR_MAP` keeps a piecewise linear regression from the lbas of a
block to its pages.  A lookup reads the page that the regression gives and looks for the lba in
the out-of-band area; when it is not there, the lbas of the area tell which neighbouring page
is read next.
-/

namespace AppL

open Transition

/-- The `retry_flag` of a read. -/
inductive RetryFlag where
  | notRetry
  | normalRetry
  | forceRetry
  deriving DecidableEq, Repr

/-- The part of a `map_read_param` that a learned index uses. -/
structure PlrParam where
  lba : ℕ
  prevOffset : ℕ
  retryFlag : RetryFlag
  intraOffset : ℕ
  oobSet : List ℕ
  deriving DecidableEq, Repr

/-- `plr_oob_check`. -/
def plrOobCheck (param : PlrParam) : Option ℕ :=
  if param.oobSet[param.intraOffset]? = some param.lba then
    some param.intraOffset
  else
    (List.range l2pgap).find? fun i => param.oobSet[i]? = some param.lba

/-- `plr_map_query_retry`. -/
def plrMapQueryRetry (param : PlrParam) : Except Abort (ℕ × PlrParam) :=
  let before := uint32 ((param.prevOffset / l2pgap * l2pgap : ℕ) - 1)
  let after := (param.prevOffset / l2pgap + 1) * l2pgap
  match param.retryFlag with
  | .normalRetry => .ok (notFound, param)
  | .forceRetry => .ok (before, { param with prevOffset := before, retryFlag := .normalRetry })
  | .notRetry => do
      let first ← orThrow .outOfBounds param.oobSet[0]?
      let last ← orThrow .outOfBounds param.oobSet[l2pgap - 1]?
      let prevOffset :=
        if param.lba < first then before
        else if last < param.lba then after
        else param.prevOffset
      return (prevOffset, { param with prevOffset := prevOffset, retryFlag := .normalRetry })

/-- The out-of-band area of a page; `oob` gives the lba of a piece. -/
def oobOf (oob : ℕ → ℕ) (ppa : ℕ) : List ℕ :=
  (List.range l2pgap).map fun i => oob (ppa * l2pgap + i)

/-- A read of the sector at `intraOffset` of the block at `pba` with `__check_data`, and the
retries that follow it; `n` is the largest number of page reads.  The result is the piece that
is found, and the number of pages that have been read. -/
def plrRead (oob : ℕ → ℕ) (pba : ℕ) : ℕ → ℕ → PlrParam → Except Abort (Option ℕ × ℕ)
  | 0, _, _ => .error .endlessLoop
  | n + 1, intraOffset, param => do
      let psa := pba * l2pgap + intraOffset
      let param := { param with
        intraOffset := psa % l2pgap
        oobSet := oobOf oob (psa / l2pgap) }
      match plrOobCheck param with
      | some i => return (some (psa / l2pgap * l2pgap + i), 1)
      | none => do
          let (offset, param) ← plrMapQueryRetry param
          if offset = notFound then
            return (none, 1)
          else do
            let (res, reads) ← plrRead oob pba n offset param
            return (res, reads + 1)

/-- `plr_map`, with the counters of its `map_function`. -/
structure PlrMap where
  plrBody : Plr.Builder
  nowContentsNum : ℕ
  maxContentsNum : ℕ

namespace PlrMap

variable (p : Plr.Param) (map : PlrMap)

/-- `plr_map_init`. -/
def init (u : Plr.Unset) (contentsNum : ℕ) : PlrMap := ⟨.new u, 0, contentsNum⟩

/-- `plr_map_insert`. -/
def insert (lba offset : ℕ) : Except Abort PlrMap := do
  require .mapOverflow (map.nowContentsNum ≤ map.maxContentsNum)
  let plrBody ← map.plrBody.insert p lba (offset / l2pgap : ℕ)
  return { map with plrBody := plrBody, nowContentsNum := map.nowContentsNum + 1 }

/-- The lbas are inserted with the offsets from `offset` on. -/
def insertAll : PlrMap → ℕ → List ℕ → Except Abort PlrMap
  | map, _, [] => .ok map
  | map, offset, lba :: lbas => do
      let map ← map.insert p lba offset
      insertAll map (offset + 1) lbas

/-- `plr_map_make_done`. -/
def makeDone : Except Abort PlrMap := do
  let plrBody ← map.plrBody.insertEnd p
  return { map with plrBody := plrBody }

/-- `plr_map_query`. -/
def query (lba : ℕ) : Except Abort (ℕ × PlrParam) := do
  let page ← map.plrBody.get p lba
  let tRes := uint32 (page * l2pgap)
  return (tRes, ⟨lba, tRes, .notRetry, 0, []⟩)

/-- A lookup in the block at `pba` with at most `n` page reads. -/
def lookup (oob : ℕ → ℕ) (pba n lba : ℕ) : Except Abort (Option ℕ × ℕ) := do
  let (offset, param) ← map.query p lba
  if offset = notFound then
    return (none, 0)
  else
    plrRead oob pba n offset param

/-- The pages that the regression gives for the lbas of a block are pages of the block, and at
most one away from the right one. -/
structure Covers (lbas : List ℕ) : Prop where
  ppaMin : 0 ≤ map.plrBody.ppaMin
  ppaMax : map.plrBody.ppaMax ≤ ((lbas.length - 1) / l2pgap : ℕ)
  near : ∀ (j lba : ℕ), lbas[j]? = some lba → ∃ v, map.plrBody.get p lba = .ok v ∧
    |v - (j / l2pgap : ℕ)| ≤ 1 ∧ map.plrBody.ppaMin ≤ v ∧ v ≤ map.plrBody.ppaMax

end PlrMap

/-- The out-of-band areas of the block at `pba` have the lbas, and `UINT32_MAX` behind the last
one. -/
def HoldsLbas (oob : ℕ → ℕ) (pba : ℕ) (lbas : List ℕ) : Prop :=
  ∀ k < ceilDiv lbas.length l2pgap * l2pgap, oob (pba * l2pgap + k) = lbas[k]?.getD uint32Max

/-! ### Pages -/

section Pages

variable {oob : ℕ → ℕ} {pba : ℕ} {lbas : List ℕ}

theorem oobOf_getElem? {i : ℕ} (hi : i < l2pgap) (ppa : ℕ) :
  (oobOf oob ppa)[i]? = some (oob (ppa * l2pgap + i))
  := by
  rw [oobOf, List.getElem?_map, List.getElem?_range hi]
  rfl

/-- The slots of a page of the block. -/
theorem slot_eq (h : HoldsLbas oob pba lbas) {v i : ℕ} (hv : v * l2pgap < lbas.length)
    (hi : i < l2pgap) :
  (oobOf oob (pba + v))[i]? = some (lbas[v * l2pgap + i]?.getD uint32Max)
  := by
  have hk := Nat.mul_le_mul_right l2pgap (Nat.succ_le_of_lt ((lt_ceilDiv (by decide)).mpr hv))
  rw [Nat.succ_mul] at hk
  rw [oobOf_getElem? hi, Nat.add_mul, Nat.add_assoc, h _ (by omega)]

theorem length_oobOf (ppa : ℕ) :
  (oobOf oob ppa).length = l2pgap
  := by rw [oobOf, List.length_map, List.length_range]

/-- A page of the block has an lba in one slot at most. -/
theorem slot_unique (h : HoldsLbas oob pba lbas) (hsorted : lbas.Pairwise (· < ·))
    {v i j lba : ℕ} (hj : lbas[j]? = some lba) (hmax : lba < uint32Max)
    (hv : v * l2pgap < lbas.length) (hi : (oobOf oob (pba + v))[i]? = some lba) :
  v * l2pgap + i = j
  := by
  have hlen : (oobOf oob (pba + v)).length = l2pgap := length_oobOf _
  have hlt : i < l2pgap := by
    rw [← hlen]
    apply (List.getElem?_eq_some_iff.mp hi).1
  rw [slot_eq h hv hlt, Option.some.injEq] at hi
  cases hx : lbas[v * l2pgap + i]? with
  | none =>
      rw [hx, Option.getD_none] at hi
      omega
  | some x =>
      rw [hx, Option.getD_some] at hi
      subst hi
      rcases Nat.lt_trichotomy (v * l2pgap + i) j with hlt | heq | hgt
      · exact absurd (sorted_lt hsorted hlt hx hj) (Nat.lt_irrefl x)
      · apply heq
      · exact absurd (sorted_lt hsorted hgt hj hx) (Nat.lt_irrefl x)

/-- The check finds the slot of an lba that is in the page once. -/
theorem plrOobCheck_eq_some {param : PlrParam} {i : ℕ} (hlt : i < l2pgap)
    (hi : param.oobSet[i]? = some param.lba)
    (hunique : ∀ i' : ℕ, param.oobSet[i']? = some param.lba → i' = i) :
  plrOobCheck param = some i
  := by
  unfold plrOobCheck
  split
  · rename_i hfirst
    rw [hunique _ hfirst]
  · cases hf : (List.range l2pgap).find? fun i => param.oobSet[i]? = some param.lba with
    | none =>
        rw [List.find?_eq_none] at hf
        have := hf i (List.mem_range.mpr hlt)
        simp [hi] at this
    | some i' =>
        have := List.find?_some hf
        rw [hunique i' (by simpa using this)]

theorem plrOobCheck_eq_none {param : PlrParam}
    (hno : ∀ i : ℕ, param.oobSet[i]? ≠ some param.lba) :
  plrOobCheck param = none
  := by
  unfold plrOobCheck
  rw [if_neg (hno _), List.find?_eq_none]
  intro i _
  simpa using hno i

/-- A read of the right page finds the lba. -/
theorem plrRead_hit (h : HoldsLbas oob pba lbas) (hsorted : lbas.Pairwise (· < ·)) {j lba : ℕ}
    (hj : lbas[j]? = some lba) (hmax : lba < uint32Max) {offset n : ℕ} {param : PlrParam}
    (hoff : offset / l2pgap = j / l2pgap) (hlba : param.lba = lba) :
  plrRead oob pba (n + 1) offset param = .ok (some (pba * l2pgap + j), 1)
  := by
  have hdiv := Nat.div_add_mod' j l2pgap
  have hmod := Nat.mod_lt j (show 0 < l2pgap by decide)
  have hlen := (List.getElem?_eq_some_iff.mp hj).1
  have hppa : (pba * l2pgap + offset) / l2pgap = pba + j / l2pgap := by
    rw [Nat.mul_comm, Nat.mul_add_div (by decide), hoff]
  have hcheck : plrOobCheck { param with
      intraOffset := (pba * l2pgap + offset) % l2pgap
      oobSet := oobOf oob (pba + j / l2pgap) } = some (j % l2pgap) := by
    apply plrOobCheck_eq_some hmod
    · rw [hlba, slot_eq h (by omega) hmod, hdiv, hj, Option.getD_some]
    · intro i hi
      dsimp only at hi
      rw [hlba] at hi
      have := slot_unique h hsorted hj hmax (by omega) hi
      omega
  rw [plrRead]
  simp only [hppa, hcheck, Nat.add_mul, Nat.add_assoc, hdiv]
  rfl

/-- A read of another page of the block does not find the lba. -/
theorem plrRead_miss (h : HoldsLbas oob pba lbas) (hsorted : lbas.Pairwise (· < ·)) {j lba : ℕ}
    (hj : lbas[j]? = some lba) (hmax : lba < uint32Max) {v n : ℕ} {param : PlrParam}
    (hv : v * l2pgap < lbas.length) (hne : v ≠ j / l2pgap) (hlba : param.lba = lba) :
  plrRead oob pba (n + 1) (v * l2pgap) param = do
    let (offset, param) ← plrMapQueryRetry { param with
      intraOffset := 0
      oobSet := oobOf oob (pba + v) }
    if offset = notFound then
      return (none, 1)
    else do
      let (res, reads) ← plrRead oob pba n offset param
      return (res, reads + 1)
  := by
  have hppa : (pba * l2pgap + v * l2pgap) / l2pgap = pba + v := by
    rw [← Nat.add_mul, Nat.mul_div_cancel _ (by decide)]
  have hslot : (pba * l2pgap + v * l2pgap) % l2pgap = 0 := by
    rw [← Nat.add_mul, Nat.mul_mod_left]
  have hcheck : plrOobCheck { param with
      intraOffset := 0
      oobSet := oobOf oob (pba + v) } = none := by
    apply plrOobCheck_eq_none
    intro i hi
    dsimp only at hi
    rw [hlba] at hi
    have heq := slot_unique h hsorted hj hmax hv hi
    have hlen : (oobOf oob (pba + v)).length = l2pgap := length_oobOf _
    have hlt : i < l2pgap := by
      rw [← hlen]
      apply (List.getElem?_eq_some_iff.mp hi).1
    apply hne
    rw [← heq, Nat.mul_comm, Nat.mul_add_div (by decide), Nat.div_eq_of_lt hlt, Nat.add_zero]
  rw [plrRead]
  simp only [hppa, hslot, hcheck]

/-- The retry after a page behind that of the lba goes to the last slot of the page before. -/
theorem plrMapQueryRetry_before (h : HoldsLbas oob pba lbas) (hsorted : lbas.Pairwise (· < ·))
    {j lba v : ℕ} (hj : lbas[j]? = some lba) (hv : v * l2pgap < lbas.length)
    (hjv : j < v * l2pgap) (hbound : lbas.length < 2 ^ 32) :
  plrMapQueryRetry ⟨lba, v * l2pgap, .notRetry, 0, oobOf oob (pba + v)⟩
    = .ok (v * l2pgap - 1,
        ⟨lba, v * l2pgap - 1, .normalRetry, 0, oobOf oob (pba + v)⟩)
  := by
  have hfirst := slot_eq h hv (i := 0) (by decide)
  have hlast := slot_eq h hv (i := l2pgap - 1) (by decide)
  obtain ⟨x, hx⟩ : ∃ x, lbas[v * l2pgap + 0]? = some x := ⟨_, List.getElem?_eq_getElem hv⟩
  have hlt := sorted_lt hsorted (show j < v * l2pgap + 0 by omega) hj hx
  rw [hx, Option.getD_some] at hfirst
  have hbefore : uint32 ((v * l2pgap : ℕ) - 1) = v * l2pgap - 1 := by
    have := uint32_of_lt (z := ((v * l2pgap : ℕ) - 1 : ℤ)) (by omega) (by omega)
    omega
  unfold plrMapQueryRetry
  simp only [hfirst, hlast, orThrow, bind, Except.bind, if_pos hlt, Nat.mul_div_cancel v
    (show 0 < l2pgap by decide), hbefore]
  rfl

/-- The retry after a page in front of that of the lba goes to the first slot of the page
after. -/
theorem plrMapQueryRetry_after (h : HoldsLbas oob pba lbas) (hsorted : lbas.Pairwise (· < ·))
    {j lba v : ℕ} (hj : lbas[j]? = some lba) (hjv : (v + 1) * l2pgap ≤ j) :
  plrMapQueryRetry ⟨lba, v * l2pgap, .notRetry, 0, oobOf oob (pba + v)⟩
    = .ok ((v + 1) * l2pgap,
        ⟨lba, (v + 1) * l2pgap, .normalRetry, 0, oobOf oob (pba + v)⟩)
  := by
  have hlen := (List.getElem?_eq_some_iff.mp hj).1
  have hpos : 0 < l2pgap := by decide
  rw [Nat.succ_mul] at hjv
  have hlt : ∀ i < l2pgap, ∃ x, (oobOf oob (pba + v))[i]? = some x ∧ x < lba := by
    intro i hi
    obtain ⟨x, hx⟩ : ∃ x, lbas[v * l2pgap + i]? = some x :=
      ⟨_, List.getElem?_eq_getElem (by omega)⟩
    refine ⟨x, ?_, sorted_lt hsorted (by omega) hx hj⟩
    rw [slot_eq h (by omega) hi, hx, Option.getD_some]
  obtain ⟨first, hfirst, hfirstlt⟩ := hlt 0 hpos
  obtain ⟨last, hlast, hlastlt⟩ := hlt (l2pgap - 1) (by omega)
  unfold plrMapQueryRetry
  simp only [hfirst, hlast, orThrow, bind, Except.bind, if_neg (not_lt.mpr hfirstlt.le),
    if_pos hlastlt, Nat.mul_div_cancel v hpos]
  rfl

/-- There are no more lbas than numbers below the last one. -/
theorem length_le_of_sorted (hsorted : lbas.Pairwise (· < ·))
    (hmax : ∀ lba ∈ lbas, lba < uint32Max) :
  lbas.length ≤ uint32Max
  := by
  have hsub : lbas ⊆ List.range uint32Max := by
    intro lba hlba
    apply List.mem_range.mpr (hmax lba hlba)
  have hnodup : lbas.Nodup := hsorted.imp fun hlt => hlt.ne
  have hlen := (List.subperm_of_subset hnodup hsub).length_le
  rwa [List.length_range] at hlen

/-- From a page that is at most one away from the right one, two reads are enough. -/
theorem plrRead_near (h : HoldsLbas oob pba lbas) (hsorted : lbas.Pairwise (· < ·))
    (hmax : ∀ lba ∈ lbas, lba < uint32Max) {j lba v : ℕ} (hj : lbas[j]? = some lba)
    (hv : v * l2pgap < lbas.length) (hnear : v ≤ j / l2pgap + 1 ∧ j / l2pgap ≤ v + 1) :
  ∃ reads, plrRead oob pba 2 (v * l2pgap) ⟨lba, v * l2pgap, .notRetry, 0, []⟩
      = .ok (some (pba * l2pgap + j), reads) ∧ reads ≤ 2
  := by
  have hpos : 0 < l2pgap := by decide
  have hlba := hmax lba (List.mem_of_getElem? hj)
  have hlen := length_le_of_sorted hsorted hmax
  have hjlen := (List.getElem?_eq_some_iff.mp hj).1
  have hdiv := Nat.div_add_mod' j l2pgap
  have hmod := Nat.mod_lt j hpos
  have hmax32 : uint32Max < 2 ^ 32 := by decide
  rcases Nat.lt_trichotomy v (j / l2pgap) with hlt | heq | hgt
  · have hjv : j / l2pgap = v + 1 := by omega
    rw [hjv] at hdiv
    refine ⟨2, ?_, Nat.le_refl 2⟩
    rw [plrRead_miss h hsorted hj hlba hv (by omega) rfl,
      plrMapQueryRetry_after h hsorted hj (by omega)]
    have hne : (v + 1) * l2pgap ≠ notFound := by
      unfold notFound
      omega
    simp only [bind, Except.bind, if_neg hne]
    rw [plrRead_hit h hsorted hj hlba (by rw [Nat.mul_div_cancel _ hpos, hjv]) rfl]
    rfl
  · refine ⟨1, ?_, by decide⟩
    apply plrRead_hit h hsorted hj hlba _ rfl
    rw [Nat.mul_div_cancel _ hpos, heq]
  · have hjv : v = j / l2pgap + 1 := by omega
    have hvmul : v * l2pgap = j / l2pgap * l2pgap + l2pgap := by
      rw [hjv, Nat.succ_mul]
    refine ⟨2, ?_, Nat.le_refl 2⟩
    rw [plrRead_miss h hsorted hj hlba hv (by omega) rfl,
      plrMapQueryRetry_before h hsorted hj hv (by omega) (by omega)]
    have hne : v * l2pgap - 1 ≠ notFound := by
      unfold notFound
      omega
    have hpage : (v * l2pgap - 1) / l2pgap = j / l2pgap := by
      rw [hvmul, Nat.div_eq_iff hpos]
      omega
    simp only [bind, Except.bind, if_neg hne]
    rw [plrRead_hit h hsorted hj hlba hpage rfl]
    rfl

end Pages

/-! ### Lookups -/

namespace PlrMap

variable {p : Plr.Param} {map : PlrMap} {oob : ℕ → ℕ} {pba : ℕ} {lbas : List ℕ}

/-- The pairs of an lba and a page that are inserted for lbas from `offset` on. -/
def pages : ℕ → List ℕ → List (ℤ × ℤ)
  | _, [] => []
  | offset, lba :: lbas => (lba, (offset / l2pgap : ℕ)) :: pages (offset + 1) lbas

theorem pages_getElem? (lbas : List ℕ) :
  ∀ (offset j : ℕ), (pages offset lbas)[j]?
    = lbas[j]?.map fun (lba : ℕ) => ((lba : ℤ), (((offset + j) / l2pgap : ℕ) : ℤ))
  := by
  induction lbas with
  | nil =>
      intro offset j
      rfl
  | cons lba lbas ih =>
      intro offset j
      rw [pages]
      cases j with
      | zero => rfl
      | succ j =>
          rw [List.getElem?_cons_succ, List.getElem?_cons_succ, ih,
            show offset + 1 + j = offset + (j + 1) by omega]

/-- The regression of the map gets the pairs. -/
theorem insertAll_plrBody (lbas : List ℕ) :
  ∀ {map map' : PlrMap} {offset : ℕ}, map.insertAll p offset lbas = .ok map' →
    map.plrBody.insertAll p (pages offset lbas) = .ok map'.plrBody
  := by
  induction lbas with
  | nil =>
      intro map map' offset h
      cases h
      rfl
  | cons lba lbas ih =>
      intro map map' offset h
      obtain ⟨map₁, h₁, h⟩ := bind_eq_ok.mp h
      obtain ⟨-, -, h₁⟩ := bind_eq_ok.mp h₁
      obtain ⟨plrBody, hbody, h₁⟩ := bind_eq_ok.mp h₁
      cases h₁
      apply bind_eq_ok.mpr ⟨plrBody, hbody, ih h⟩

/-- A lookup in a regression gives one of its pages. -/
theorem get_between {s : Plr.Builder} {lba v : ℤ} (h : s.get p lba = .ok v)
    (hmin : 0 ≤ s.ppaMin) (hle : s.ppaMin ≤ s.ppaMax) (hmax : s.ppaMax * Plr.tick < 2 ^ 31) :
  s.ppaMin ≤ v ∧ v ≤ s.ppaMax
  := by
  obtain ⟨l, hline, -⟩ := bind_eq_ok.mp h
  rw [Plr.get_of_lineAt hline] at h
  cases h
  have htick : Plr.tick = 200 := rfl
  rw [htick] at hmax
  have hintmin : Plr.int32 (s.ppaMin * Plr.tick) = s.ppaMin * 200 := by
    rw [htick]
    apply Plr.int32_eq (by omega) (by omega)
  have hintmax : Plr.int32 (s.ppaMax * Plr.tick) = s.ppaMax * 200 := by
    rw [htick]
    apply Plr.int32_eq (by omega) (by omega)
  rw [hintmin, hintmax, htick]
  split
  · use le_refl _, hle
  · split
    · use hle, le_refl _
    · rw [Int.tdiv_eq_ediv_of_nonneg (by omega)]
      omega

/-- A finished index whose regression is within one page of all pairs covers the block. -/
theorem makeDone_covers {u : Plr.Unset} {contentsNum : ℕ} {map' : PlrMap} (hne : lbas ≠ [])
    (hfits : ∀ q ∈ pages 0 lbas, Plr.Fits q ∧ q.2 * Plr.tick < 2 ^ 31)
    (hmap : (init u contentsNum).insertAll p 0 lbas = .ok map)
    (hwithin : Plr.Within p (pages 0 lbas) map.plrBody) (hdone : map.makeDone p = .ok map') :
  map'.Covers p lbas
  := by
  have hbody := insertAll_plrBody lbas hmap
  have hnew : Plr.Grows [] (.new u) :=
    ⟨(Plr.inserted_new (p := p) u).counted, fun h => (h rfl).elim, rfl⟩
  have hgrows := Plr.insertAll_grows _ hnew (fun q hq => (hfits q hq).1) hbody
  rw [List.nil_append] at hgrows
  have hpages : pages 0 lbas ≠ [] := by
    intro hnil
    have h0 := pages_getElem? lbas 0 0
    rw [hnil, List.getElem?_nil] at h0
    have hpos := List.length_pos_of_ne_nil hne
    rw [List.getElem?_eq_getElem hpos] at h0
    cases h0
  obtain ⟨s', hend, hdone⟩ := bind_eq_ok.mp hdone
  cases hdone
  obtain ⟨-, hmin, hmax⟩ := Plr.insertEnd_chunk hgrows hpages hend
  obtain ⟨q, hq, hlo⟩ := hgrows.counted.least.resolve_left hpages
  obtain ⟨q', hq', hhi⟩ := hgrows.counted.largest.resolve_left hpages
  have hge := (hfits q hq).1.ppa_ge
  have hle := (hgrows.counted.between q hq).2
  have hlt := (hfits q' hq').2
  rw [← hlo, ← hmin] at hge hle
  rw [← hmax] at hle
  obtain ⟨j, hj⟩ := List.mem_iff_getElem?.mp hq'
  rw [pages_getElem?, Option.map_eq_some_iff] at hj
  obtain ⟨x, hx, rfl⟩ := hj
  have hjlen := (List.getElem?_eq_some_iff.mp hx).1
  dsimp only at hhi hlt
  constructor
  · apply hge
  · rw [hmax, hhi, Nat.zero_add]
    exact_mod_cast Nat.div_le_div_right (by omega)
  · intro j lba hj
    obtain ⟨s₁, hs₁, hnear⟩ := hwithin
    obtain rfl : s₁ = s' := Except.ok.inj (hs₁.symm.trans hend)
    have hmem : ((lba : ℤ), ((j / l2pgap : ℕ) : ℤ)) ∈ pages 0 lbas := by
      apply List.mem_of_getElem? (i := j)
      rw [pages_getElem?, hj, Nat.zero_add]
      rfl
    obtain ⟨v, hv, habs⟩ := hnear _ hmem
    rw [← hhi, ← hmax] at hlt
    exact ⟨v, hv, habs, get_between hv hge hle hlt⟩

theorem lookup_of_covers (hcovers : map.Covers p lbas) (h : HoldsLbas oob pba lbas)
    (hsorted : lbas.Pairwise (· < ·)) (hmax : ∀ lba ∈ lbas, lba < uint32Max) {j lba : ℕ}
    (hj : lbas[j]? = some lba) :
  ∃ reads, map.lookup p oob pba 2 lba = .ok (some (pba * l2pgap + j), reads) ∧ reads ≤ 2
  := by
  have hpos : 0 < l2pgap := by decide
  have hmax32 : uint32Max < 2 ^ 32 := by decide
  have hjlen := (List.getElem?_eq_some_iff.mp hj).1
  have hlen := length_le_of_sorted hsorted hmax
  have hmul := Nat.div_mul_le_self (lbas.length - 1) l2pgap
  obtain ⟨v, hget, hnear, hge, hle⟩ := hcovers.near j lba hj
  obtain ⟨n, rfl⟩ := Int.eq_ofNat_of_zero_le (hcovers.ppaMin.trans hge)
  have hn : n ≤ (lbas.length - 1) / l2pgap := by
    have := hle.trans hcovers.ppaMax
    omega
  have hnmul := Nat.mul_le_mul_right l2pgap hn
  have hres : uint32 ((n : ℤ) * l2pgap) = n * l2pgap := by
    have := uint32_of_lt (z := ((n * l2pgap : ℕ) : ℤ)) (by omega) (by omega)
    push_cast at this
    omega
  rw [abs_le] at hnear
  obtain ⟨reads, hread, hreads⟩ := plrRead_near h hsorted hmax hj (v := n) (by omega) (by omega)
  refine ⟨reads, ?_, hreads⟩
  have hne : n * l2pgap ≠ notFound := by
    unfold notFound
    omega
  unfold lookup query
  simp only [hget, bind, Except.bind, pure, Except.pure, hres, if_neg hne, hread]

/-- A finished index whose regression is within one page of all pairs finds every sector of the block
with at most two page reads. -/
theorem makeDone_lookup {u : Plr.Unset} {contentsNum : ℕ} {map' : PlrMap} (hne : lbas ≠ [])
    (hfits : ∀ q ∈ pages 0 lbas, Plr.Fits q ∧ q.2 * Plr.tick < 2 ^ 31)
    (hmap : (init u contentsNum).insertAll p 0 lbas = .ok map)
    (hwithin : Plr.Within p (pages 0 lbas) map.plrBody) (hdone : map.makeDone p = .ok map')
    (h : HoldsLbas oob pba lbas) (hsorted : lbas.Pairwise (· < ·))
    (hmax : ∀ lba ∈ lbas, lba < uint32Max) {j lba : ℕ} (hj : lbas[j]? = some lba) :
  ∃ reads, map'.lookup p oob pba 2 lba = .ok (some (pba * l2pgap + j), reads) ∧ reads ≤ 2
  := by
  have hcovers := makeDone_covers hne hfits hmap hwithin hdone
  apply lookup_of_covers hcovers h hsorted hmax hj

/-- The sector of every lba of a block is found with at most two page reads. -/
theorem lookup_found (h : HoldsLbas oob pba lbas) (hsorted : lbas.Pairwise (· < ·))
    (hmax : ∀ lba ∈ lbas, lba < uint32Max) (hcovers : map.Covers p lbas) {j lba : ℕ}
    (hj : lbas[j]? = some lba) :
  ∃ reads, map.lookup p oob pba 2 lba = .ok (some (pba * l2pgap + j), reads) ∧ reads ≤ 2
  := by
  apply lookup_of_covers hcovers h hsorted hmax hj

/-- A block with sectors in two pages. -/
def sixSectors : List ℕ := [3, 5, 8, 9, 20, 21]

theorem lookup_found_sixSectors :
  ∃ map, ((init ⟨⟨0, 0⟩, ⟨0, 0⟩, ⟨0, 0⟩, ⟨0, 0⟩, ⟨0, 0⟩, ⟨0, 0⟩⟩ 6).insertAll Plr.smallRange 0
      sixSectors >>= fun map => map.makeDone Plr.smallRange) = .ok map ∧
    ∃ reads, map.lookup Plr.smallRange (fun psa => sixSectors[psa]?.getD uint32Max) 0 2 5
      = .ok (some 1, reads) ∧ reads ≤ 2
  := by
  have heval : (((init ⟨⟨0, 0⟩, ⟨0, 0⟩, ⟨0, 0⟩, ⟨0, 0⟩, ⟨0, 0⟩, ⟨0, 0⟩⟩ 6).insertAll
      Plr.smallRange 0 sixSectors >>= fun map => map.makeDone Plr.smallRange).map fun map =>
        (map.plrBody.ppaMin, map.plrBody.ppaMax, sixSectors.map fun lba =>
          map.plrBody.get Plr.smallRange lba)) = .ok (0, 1, List.replicate 6 (.ok 1)) := by
    decide +kernel
  obtain ⟨map, hmap, heq⟩ := map_eq_ok heval
  obtain ⟨hmin, hrest⟩ := Prod.mk.inj heq
  obtain ⟨hmax, hget⟩ := Prod.mk.inj hrest
  have hcovers : map.Covers Plr.smallRange sixSectors := by
    use hmin.ge, hmax.le
    intro j lba hj
    have hjlt : j < 6 := (List.getElem?_eq_some_iff.mp hj).1
    have hv : map.plrBody.get Plr.smallRange lba = .ok 1 := by
      have hmem : map.plrBody.get Plr.smallRange lba ∈ sixSectors.map fun lba : ℕ =>
          map.plrBody.get Plr.smallRange lba := List.mem_map_of_mem (List.mem_of_getElem? hj)
      rw [hget] at hmem
      apply (List.mem_replicate.mp hmem).2
    have hpage : j / l2pgap ≤ 1 := by
      unfold l2pgap
      omega
    have hnn := Int.natCast_nonneg (j / l2pgap)
    refine ⟨1, hv, ?_, by omega, by omega⟩
    rw [abs_le]
    omega
  use map, hmap
  have hholds : HoldsLbas (fun psa => sixSectors[psa]?.getD uint32Max) 0 sixSectors := by
    intro k _
    simp only [Nat.zero_mul, Nat.zero_add]
  apply lookup_found hholds (by decide) (by decide) hcovers (j := 1) rfl

/-- The check of the only page of a block, however it is filled up, finds the lba. -/
theorem plrOobCheck_page (hoob : ∀ i x, lbas[i]? = some x → oob (pba * l2pgap + i) = x)
    (hsorted : lbas.Pairwise (· < ·)) {j lba prevOffset : ℕ} {flag : RetryFlag}
    (hj : lbas[j]? = some lba) (hlt : j < l2pgap) :
  plrOobCheck ⟨lba, prevOffset, flag, 0, oobOf oob pba⟩ = some j
  := by
  have hslot : ∀ i ≤ j, (oobOf oob pba)[i]? = some lba ↔ i = j := by
    intro i hi
    obtain ⟨x, hx⟩ : ∃ x, lbas[i]? = some x :=
      ⟨_, List.getElem?_eq_getElem (hi.trans_lt (List.getElem?_eq_some_iff.mp hj).1)⟩
    rw [oobOf_getElem? (hi.trans_lt hlt), hoob i x hx, Option.some.injEq]
    constructor
    · rintro rfl
      by_contra hne
      apply Nat.lt_irrefl x (sorted_lt hsorted (by omega) hx hj)
    · rintro rfl
      apply Option.some.inj (hx.symm.trans hj)
  rw [plrOobCheck]
  split
  · rename_i hfirst
    rw [(hslot 0 (Nat.zero_le j)).mp hfirst]
  · rw [List.find?_range_eq_some]
    refine ⟨?_, List.mem_range.mpr hlt, ?_⟩
    · rw [decide_eq_true_eq]
      apply (hslot j (Nat.le_refl j)).mpr rfl
    · intro i hi
      rw [Bool.not_eq_true', decide_eq_false_iff_not, hslot i hi.le]
      apply Nat.ne_of_lt hi

/-- The regression gives an lba a page that is at most one away from `page`. -/
def coversAt (p : Plr.Param) (map : PlrMap) (lba page : ℕ) : Bool :=
  match map.plrBody.get p lba with
  | .ok v => decide (|v - page| ≤ 1 ∧ map.plrBody.ppaMin ≤ v ∧ v ≤ map.plrBody.ppaMax)
  | .error _ => false

theorem coversAt_iff {lba page : ℕ} :
  map.coversAt p lba page = true ↔ ∃ v, map.plrBody.get p lba = .ok v ∧
    |v - page| ≤ 1 ∧ map.plrBody.ppaMin ≤ v ∧ v ≤ map.plrBody.ppaMax
  := by
  rw [coversAt]
  cases map.plrBody.get p lba with
  | ok v => simp
  | error e => simp

instance decidableCovers : Decidable (map.Covers p lbas) :=
  decidable_of_iff (0 ≤ map.plrBody.ppaMin ∧
      map.plrBody.ppaMax ≤ ((lbas.length - 1) / l2pgap : ℕ) ∧
      ∀ x ∈ lbas.zipIdx, map.coversAt p x.1 (x.2 / l2pgap) = true) <| by
    constructor
    · rintro ⟨hmin, hmax, hall⟩
      use hmin, hmax
      intro j lba hj
      apply coversAt_iff.mp (hall (lba, j) (List.mem_zipIdx_iff_getElem?.mpr hj))
    · rintro ⟨hmin, hmax, hnear⟩
      use hmin, hmax
      rintro ⟨lba, j⟩ hmem
      apply coversAt_iff.mpr (hnear j lba (List.mem_zipIdx_iff_getElem?.mp hmem))

/-- The page that a query gives is a page of the block, and at most one away from the right
one. -/
theorem query_near (hsorted : lbas.Pairwise (· < ·)) (hmax : ∀ lba ∈ lbas, lba < uint32Max)
    (hcovers : map.Covers p lbas) {j lba : ℕ} (hj : lbas[j]? = some lba) :
  ∃ n, map.query p lba = .ok (n * l2pgap, ⟨lba, n * l2pgap, .notRetry, 0, []⟩) ∧
    n * l2pgap ≠ notFound ∧ n * l2pgap < lbas.length ∧ n ≤ j / l2pgap + 1 ∧ j / l2pgap ≤ n + 1
  := by
  have hlen := length_le_of_sorted hsorted hmax
  have hpos := (List.getElem?_eq_some_iff.mp hj).1
  have hmul := Nat.div_mul_le_self (lbas.length - 1) l2pgap
  have hmax32 : uint32Max < 2 ^ 32 := by decide
  obtain ⟨v, hget, hnear, hge, hle⟩ := hcovers.near j lba hj
  obtain ⟨n, rfl⟩ := Int.eq_ofNat_of_zero_le (hcovers.ppaMin.trans hge)
  have hn : n ≤ (lbas.length - 1) / l2pgap := by
    have := hle.trans hcovers.ppaMax
    omega
  have hnmul := Nat.mul_le_mul_right l2pgap hn
  have hres : uint32 ((n : ℤ) * l2pgap) = n * l2pgap := by
    have := uint32_of_lt (z := ((n * l2pgap : ℕ) : ℤ)) (by omega) (by omega)
    push_cast at this
    omega
  rw [abs_le] at hnear
  refine ⟨n, ?_, ?_, by omega, by omega, by omega⟩
  · simp only [query, hget, bind, Except.bind, pure, Except.pure, hres]
  · rw [notFound]
    omega

/-- The sectors of a block are found with at most two page reads, however its only page is filled
up. -/
theorem lookup_sector (hoob : ∀ i x, lbas[i]? = some x → oob (pba * l2pgap + i) = x)
    (hfill : l2pgap < lbas.length → HoldsLbas oob pba lbas) (hsorted : lbas.Pairwise (· < ·))
    (hmax : ∀ lba ∈ lbas, lba < uint32Max) (hcovers : map.Covers p lbas) {j lba : ℕ}
    (hj : lbas[j]? = some lba) :
  ∃ reads, map.lookup p oob pba 2 lba = .ok (some (pba * l2pgap + j), reads) ∧ reads ≤ 2
  := by
  have hjlen := (List.getElem?_eq_some_iff.mp hj).1
  obtain ⟨n, hquery, hne, hlt, hnear⟩ := query_near hsorted hmax hcovers hj
  rcases Nat.lt_or_ge l2pgap lbas.length with hlarge | hsmall
  · obtain ⟨reads, hread, hreads⟩ := plrRead_near (hfill hlarge) hsorted hmax hj hlt hnear
    refine ⟨reads, ?_, hreads⟩
    simp only [lookup, hquery, bind, Except.bind, if_neg hne, hread]
  · have hzero : n * l2pgap = 0 := by
      rcases Nat.eq_zero_or_pos n with rfl | hpos
      · apply Nat.zero_mul _
      · have := Nat.mul_le_mul_right l2pgap hpos
        omega
    rw [hzero] at hquery hne
    have hcheck : plrOobCheck ⟨lba, 0, .notRetry, 0, oobOf oob pba⟩ = some j :=
      plrOobCheck_page hoob hsorted hj (hjlen.trans_le hsmall)
    have hpba : pba * l2pgap / l2pgap = pba := Nat.mul_div_cancel _ (by decide)
    have hmod : pba * l2pgap % l2pgap = 0 := Nat.mul_mod_left _ _
    refine ⟨1, ?_, by decide⟩
    simp only [lookup, hquery, bind, Except.bind, if_neg hne, plrRead, Nat.add_zero, hpba, hmod,
      hcheck, pure, Except.pure]

end PlrMap

end AppL
