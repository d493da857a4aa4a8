import AppL.LeaFtl.Newest
import AppL.LeaFtl.Slices

/-!
# The lookup of an address

A list of addresses is written in order to consecutive pages, so that the page beside the one
that has been read is known from the addresses there.  When the prediction is at most one page
away, and between the pages of its segment, a lookup finds the piece of the address.
-/

namespace AppL

open Transition

namespace LeaFtl

variable {P : Type}

/-- The points of a `PLR` come in order. -/
def Rising (l : List (ℕ × ℕ)) : Prop := l.Pairwise fun a b => a.1 < b.1 ∧ a.2 ≤ b.2

/-- The error of a prediction is at most one page, and a prediction is not less than `PPA_min`
and not greater than `PPA_max`. -/
structure Predictor.Bounded (pr : Predictor P) : Prop where
  near : ∀ l, Rising l → ∀ q ∈ l, pr.get (pr.make l) q.1 ≤ q.2 + 1 ∧ q.2 ≤ pr.get (pr.make l) q.1 + 1
  ge : ∀ l x, Rising l → l ≠ [] → ∃ q ∈ l, q.2 ≤ pr.get (pr.make l) x
  le : ∀ l x, Rising l → l ≠ [] → ∃ q ∈ l, pr.get (pr.make l) x ≤ q.2

/-- The OOB of the pages of a batch has its addresses. -/
def Intact (oob : ℕ → ℕ → ℕ) (b : Batch) : Prop :=
  ∀ q r, q * l2pgap < b.lba.length → r < l2pgap →
    oob (b.ppa + q) r = b.lba[q * l2pgap + r]?.getD 0

/-- The addresses of an insertion are those of a batch from `off` on. -/
structure Placed (oob : ℕ → ℕ → ℕ) (i : Insert) (b : Batch) (off : ℕ) : Prop where
  intact : Intact oob b
  sorted : b.lba.Pairwise (· < ·)
  lba : ∀ j l, i.tmap.lba[j]? = some l → b.lba[off + j]? = some l
  piece : ∀ j p, i.tmap.piecePpa[j]? = some p → p = b.ppa * l2pgap + (off + j)

section Pages

variable {oob : ℕ → ℕ → ℕ} {b : Batch} {m lba q : ℕ}

/-- An address is at one place of a batch. -/
theorem index_unique {l : List ℕ} (hs : l.Pairwise (· < ·)) {m n x : ℕ} (hm : l[m]? = some x)
    (hn : l[n]? = some x) :
  m = n
  := by
  obtain ⟨hm', hmx⟩ := List.getElem?_eq_some_iff.mp hm
  obtain ⟨hn', hnx⟩ := List.getElem?_eq_some_iff.mp hn
  have hlt := List.pairwise_iff_getElem.mp hs
  rcases lt_trichotomy m n with h | h | h
  · have := hlt m n hm' hn' h
    omega
  · apply h
  · have := hlt n m hn' hm' h
    omega

/-- Where an address is found in the OOB of a page. -/
theorem oob_eq_iff (hi : Intact oob b) (hs : b.lba.Pairwise (· < ·)) (hm : b.lba[m]? = some lba)
    (hpos : 0 < lba) (hq : q * l2pgap < b.lba.length) {r : ℕ} (hr : r < l2pgap) :
  oob (b.ppa + q) r = lba ↔ q * l2pgap + r = m
  := by
  rw [hi q r hq hr]
  constructor
  · intro h
    cases hget : b.lba[q * l2pgap + r]? with
    | none =>
        rw [hget] at h
        exact absurd h hpos.ne
    | some x =>
        rw [hget] at h
        obtain rfl : x = lba := h
        apply index_unique hs hget hm
  · rintro rfl
    rw [hm]
    rfl

/-- The check of the page that has the address. -/
theorem groupOobCheck_eq (hi : Intact oob b) (hs : b.lba.Pairwise (· < ·))
    (hm : b.lba[m]? = some lba) (hpos : 0 < lba) (hq : q * l2pgap < b.lba.length) {grp : ReadParam}
    (hgrp : grp.lba = lba) (hpage : grp.piecePpa / l2pgap = b.ppa + q) :
  groupOobCheck oob grp = if q = m / l2pgap then some (m % l2pgap) else none
  := by
  have hiff := @oob_eq_iff oob b m lba q hi hs hm hpos hq
  unfold groupOobCheck
  rw [hpage, hgrp]
  split
  · rename_i heq
    have hmod : m % l2pgap < l2pgap := Nat.mod_lt _ (by decide)
    have hsum : q * l2pgap + m % l2pgap = m := by
      rw [heq, Nat.mul_comm]
      apply Nat.div_add_mod m l2pgap
    have hsome : ((List.range l2pgap).find? fun i => decide (oob (b.ppa + q) i = lba)).isSome := by
      rw [List.find?_isSome]
      use m % l2pgap, List.mem_range.mpr hmod, decide_eq_true ((hiff hmod).mpr hsum)
    obtain ⟨r, hr⟩ := Option.isSome_iff_exists.mp hsome
    have hr' := List.mem_range.mp (List.mem_of_find?_eq_some hr)
    have hfound : decide (oob (b.ppa + q) r = lba) = true
      := List.find?_some (p := fun i => decide (oob (b.ppa + q) i = lba)) hr
    have heq' := (hiff hr').mp (of_decide_eq_true hfound)
    rw [hr]
    congr 1
    omega
  · rename_i hne
    rw [List.find?_eq_none]
    intro r hr heq
    have hr' := List.mem_range.mp hr
    have hsum := (hiff hr').mp (of_decide_eq_true heq)
    apply hne
    rw [← hsum, Nat.mul_comm, Nat.mul_add_div (by decide), Nat.div_eq_of_lt hr', Nat.add_zero]

/-- The retry goes to the page of the address. -/
theorem retryPiece_page (hi : Intact oob b) (hs : b.lba.Pairwise (· < ·))
    (hm : b.lba[m]? = some lba) (hq : q * l2pgap < b.lba.length) (hne : q ≠ m / l2pgap)
    (hle : q ≤ m / l2pgap + 1) (hge : m / l2pgap ≤ q + 1) {grp : ReadParam} (hgrp : grp.lba = lba)
    (hpage : grp.piecePpa / l2pgap = b.ppa + q) :
  grp.retryPiece oob / l2pgap = b.ppa + m / l2pgap
  := by
  have hlt := List.pairwise_iff_getElem.mp hs
  obtain ⟨hmlt, rfl⟩ := List.getElem?_eq_some_iff.mp hm
  have hfirst : oob (b.ppa + q) 0 = b.lba[q * l2pgap] := by
    rw [hi q 0 hq (by decide), Nat.add_zero, List.getElem?_eq_getElem hq]
    rfl
  have hbefore : ∀ n (hn : n < b.lba.length), n < m → b.lba[n] < b.lba[m]
    := fun n hn hnm => hlt n m hn hmlt hnm
  have hafter : ∀ n (hn : n < b.lba.length), m < n → b.lba[m] < b.lba[n]
    := fun n hn hnm => hlt m n hmlt hn hnm
  unfold ReadParam.retryPiece
  rw [hpage, hgrp]
  dsimp only
  rw [hfirst]
  unfold l2pgap at *
  rcases Nat.lt_or_ge (m / 4) q with hgt | hle'
  · rw [if_pos (hafter _ hq (by omega)), if_neg (by omega)]
    omega
  · have hlast : q * 4 + 3 < b.lba.length := by omega
    have hthree : oob (b.ppa + q) (4 - 1) = b.lba[q * 4 + 3] := by
      rw [hi q 3 hq (by decide)]
      unfold l2pgap
      rw [List.getElem?_eq_getElem hlast]
      rfl
    have hnot : ¬ b.lba[m] < b.lba[q * 4] := by
      have := hbefore _ hq (by omega)
      omega
    rw [if_neg hnot, hthree, if_pos (hbefore _ hlast (by omega))]
    omega

end Pages

/-! ### Segments -/

section Segment

variable {pr : Predictor P} {oob : ℕ → ℕ → ℕ} {gp : Group P} {i : Insert} {a : Segment P}
  {b : Batch} {off j lba mapIdx : ℕ}

/-- The address at a position of a list with a constant stride. -/
theorem eq_of_stride {n : ℕ} {l : List ℕ} :
  ∀ {a j x : ℕ}, l.head? = some a → l.IsChain (fun a b => b = a + n) → l[j]? = some x →
    x = a + j * n
  := by
  induction l with
  | nil =>
      intro a j x ha
      cases ha
  | cons c l ih =>
      intro a j x ha hchain hx
      obtain rfl : c = a := Option.some.inj ha
      cases j with
      | zero =>
          obtain rfl : c = x := Option.some.inj hx
          omega
      | succ j =>
          rw [List.getElem?_cons_succ] at hx
          cases l with
          | nil => cases hx
          | cons d l =>
              obtain ⟨rfl, hchain⟩ := List.isChain_cons_cons.mp hchain
              have := ih rfl hchain hx
              rw [this, Nat.succ_mul]
              omega

/-- The points of a segment of a batch. -/
theorem Placed.rising (h : Placed oob i b off) (hi : i.Valid mapIdx) {start : ℕ}
    (hstart : i.tmap.lba.head? = some start) :
  Rising (i.tmap.points start)
  := by
  have hsorted := List.pairwise_iff_getElem.mp hi.sorted
  have hle : ∀ l ∈ i.tmap.lba, start ≤ l := by
    obtain ⟨t, ht⟩ := List.head?_eq_some_iff.mp hstart
    have hpair := hi.sorted
    rw [ht] at hpair ⊢
    intro l hl
    obtain rfl | hl := List.mem_cons.mp hl
    · apply le_rfl
    · exact ((List.pairwise_cons.mp hpair).1 l hl).le
  unfold Rising TempMap.points
  rw [List.pairwise_map, List.pairwise_iff_getElem]
  intro m n hm hn hmn
  rw [List.length_zip, hi.pieces, Nat.min_self] at hm hn
  simp only [List.getElem_zip]
  have hlt := hsorted m n hm hn hmn
  have hge := hle _ (List.getElem_mem hm)
  have hpm := h.piece m _ (List.getElem?_eq_getElem (by rw [hi.pieces]; exact hm))
  have hpn := h.piece n _ (List.getElem?_eq_getElem (by rw [hi.pieces]; exact hn))
  rw [hpm, hpn]
  use by omega
  apply Nat.div_le_div_right (by omega)

/-- The pages of the points. -/
theorem Placed.page (h : Placed oob i b off) {start : ℕ} {q : ℕ × ℕ}
    (hq : q ∈ i.tmap.points start) :
  ∃ k, off + k < b.lba.length ∧ q.2 = b.ppa + (off + k) / l2pgap
  := by
  obtain ⟨r, hr, rfl⟩ := List.mem_map.mp hq
  obtain ⟨k, hk, rfl⟩ := List.mem_iff_getElem.mp hr
  rw [List.length_zip] at hk
  have hlba : k < i.tmap.lba.length := by omega
  have hpiece : k < i.tmap.piecePpa.length := by omega
  have hb := h.lba k _ (List.getElem?_eq_getElem hlba)
  refine ⟨k, (List.getElem?_eq_some_iff.mp hb).1, ?_⟩
  rw [List.getElem_zip]
  dsimp only
  rw [h.piece k _ (List.getElem?_eq_getElem hpiece), Nat.mul_comm, Nat.mul_add_div (by decide)]

/-- The prediction for an address of an approximate segment. -/
theorem Placed.predict (hpr : pr.Bounded) (h : Placed oob i b off) (hi : i.Valid mapIdx) {start : ℕ}
    (hstart : i.tmap.lba.head? = some start) (hj : i.tmap.lba[j]? = some lba) :
  ∃ q, pr.get (pr.make (i.tmap.points start)) (lba - start) = b.ppa + q
    ∧ q * l2pgap < b.lba.length ∧ q ≤ (off + j) / l2pgap + 1 ∧ (off + j) / l2pgap ≤ q + 1
  := by
  have hrising := h.rising hi hstart
  have hjlt := (List.getElem?_eq_some_iff.mp hj).1
  have hmem : (lba - start, b.ppa + (off + j) / l2pgap) ∈ i.tmap.points start := by
    apply List.mem_map.mpr
    have hplt : j < i.tmap.piecePpa.length := by
      rw [hi.pieces]
      apply hjlt
    refine ⟨(lba, i.tmap.piecePpa[j]), ?_, ?_⟩
    · apply List.mem_iff_getElem?.mpr
      use j
      rw [List.getElem?_zip_eq_some]
      use hj, List.getElem?_eq_getElem hplt
    · dsimp only
      rw [h.piece j _ (List.getElem?_eq_getElem hplt), Nat.mul_comm, Nat.mul_add_div (by decide)]
  have hne : i.tmap.points start ≠ [] := List.ne_nil_of_mem hmem
  obtain ⟨hnear, hnear'⟩ := hpr.near _ hrising _ hmem
  obtain ⟨q₁, hq₁, hge⟩ := hpr.ge _ (lba - start) hrising hne
  obtain ⟨q₂, hq₂, hle⟩ := hpr.le _ (lba - start) hrising hne
  obtain ⟨k₁, -, hk₁⟩ := h.page hq₁
  obtain ⟨k₂, hlen, hk₂⟩ := h.page hq₂
  dsimp only at hnear hnear'
  generalize pr.get (pr.make (i.tmap.points start)) (lba - start) = v at *
  unfold l2pgap at *
  use v - b.ppa, by omega, by omega, by omega, by omega

/-- A page is read, and the address is there. -/
theorem groupReadEndReq_found {m q : ℕ} (hi : Intact oob b) (hs : b.lba.Pairwise (· < ·))
    (hm : b.lba[m]? = some lba) (hpos : 0 < lba) (hlt : m < b.lba.length) {grp : ReadParam}
    (hgrp : grp.lba = lba) (hpage : grp.piecePpa / l2pgap = b.ppa + q) (hq : q = m / l2pgap) :
  groupReadEndReq oob grp
    = { grp with piecePpa := b.ppa * l2pgap + m, retryFlag := .dataFound }
  := by
  have hlen : q * l2pgap < b.lba.length := by
    rw [hq]
    apply lt_of_le_of_lt (Nat.div_mul_le_self m l2pgap) hlt
  unfold groupReadEndReq
  rw [groupOobCheck_eq hi hs hm hpos hlen hgrp hpage, if_pos hq, hpage]
  dsimp only
  congr 1
  rw [hq, Nat.add_mul, Nat.add_assoc, Nat.mul_comm (m / l2pgap), Nat.div_add_mod]

theorem Placed.startPiece (hplaced : Placed oob i b off) (hmade : Made pr i a) :
  a.startPiecePpa = b.ppa * l2pgap + off
  := by
  have hhead := hmade.piece
  rw [List.head?_eq_getElem?] at hhead
  apply hplaced.piece 0 _ hhead

/-- An address that is not the first one lies behind it. -/
theorem start_lt_of_ne (hi : i.Valid mapIdx) (hmade : Made pr i a) (hj : i.tmap.lba[j]? = some lba)
    (hne : a.originalStart ≠ lba) :
  a.start < lba
  := by
  have hfirst : i.tmap.lba[0]? = some a.start := by
    rw [← List.head?_eq_getElem?]
    apply hmade.start
  have hjpos : 0 < j := by
    rw [Nat.pos_iff_ne_zero]
    rintro rfl
    rw [hfirst, Option.some.injEq] at hj
    apply hne
    rw [hmade.originalStart, hj]
  obtain ⟨h₀, hx₀⟩ := List.getElem?_eq_some_iff.mp hfirst
  obtain ⟨h₁, hx₁⟩ := List.getElem?_eq_some_iff.mp hj
  rw [← hx₀, ← hx₁]
  apply List.pairwise_iff_getElem.mp hi.sorted 0 j h₀ h₁ hjpos

/-- An accurate segment gives the piece of the address. -/
theorem segmentGetAddr_accurate (hi : i.Valid mapIdx) (hmade : Made pr i a)
    (hplaced : Placed oob i b off) (hj : i.tmap.lba[j]? = some lba) (hlt : a.start < lba)
    (htype : i.type = .accurate) :
  segmentGetAddr pr a lba = b.ppa * l2pgap + (off + j)
  := by
  have hx := eq_of_stride hmade.start (hi.stride htype) hj
  have hne : i.interval ≠ 0 := by
    intro hzero
    rw [hzero, Nat.mul_zero] at hx
    omega
  have hdiv : (lba - a.start) / (if i.interval ≤ 1 then 1 else i.interval) = j := by
    have hsub : lba - a.start = j * i.interval := by omega
    rw [hsub]
    split
    · obtain hone : i.interval = 1 := by omega
      rw [hone, Nat.mul_one, Nat.div_one]
    · apply Nat.mul_div_cancel j (by omega)
  unfold segmentGetAddr
  rw [hmade.accurate htype, hmade.originalStart, hplaced.startPiece hmade]
  dsimp only
  rw [hdiv]
  omega

/-- An approximate segment gives the first piece of the page that is predicted. -/
theorem segmentGetAddr_approximate {q : ℕ} (hmade : Made pr i a) (htype : i.type = .approximate)
    (hpredict : pr.get (pr.make (i.tmap.points a.start)) (lba - a.start) = b.ppa + q) :
  segmentGetAddr pr a lba = (b.ppa + q) * l2pgap
  := by
  unfold segmentGetAddr
  rw [hmade.approximate htype, hmade.originalStart]
  dsimp only
  rw [hpredict]

section Get

variable {k : ℕ}

/-- A lookup that begins at the first address of its segment. -/
theorem groupGet_first (hfind : gp.segs.find? (fun seg => seg.seq = k) = some a)
    (hstart : a.originalStart = lba) :
  groupGet pr oob gp { lba := lba, seg := some k, retryFlag := .init, piecePpa := 0 }
    = .ok ({ lba := lba, seg := some k, retryFlag := .dataFound, piecePpa := a.startPiecePpa },
      false)
  := by
  refine bind_eq_ok.mpr ⟨a, orThrow_eq_ok.mpr hfind, ?_⟩
  rw [if_pos hstart]
  rfl

/-- An address of an accurate segment needs no read. -/
theorem groupGet_accurate (hfind : gp.segs.find? (fun seg => seg.seq = k) = some a)
    (hstart : a.originalStart ≠ lba) (htype : a.type = .accurate) :
  groupGet pr oob gp { lba := lba, seg := some k, retryFlag := .init, piecePpa := 0 }
    = .ok ({ lba := lba, seg := some k, retryFlag := .dataFound,
             piecePpa := segmentGetAddr pr a lba }, false)
  := by
  refine bind_eq_ok.mpr ⟨a, orThrow_eq_ok.mpr hfind, ?_⟩
  rw [if_neg hstart, htype]
  rfl

/-- The page that an approximate segment predicts is read. -/
theorem groupGet_approximate (hfind : gp.segs.find? (fun seg => seg.seq = k) = some a)
    (hstart : a.originalStart ≠ lba) (htype : a.type = .approximate) :
  groupGet pr oob gp { lba := lba, seg := some k, retryFlag := .init, piecePpa := 0 }
    = .ok ({ lba := lba, seg := some k, retryFlag := .notRetry,
             piecePpa := segmentGetAddr pr a lba }, true)
  := by
  refine bind_eq_ok.mpr ⟨a, orThrow_eq_ok.mpr hfind, ?_⟩
  rw [if_neg hstart, htype]
  rfl

/-- A page beside that of the address does not have it. -/
theorem groupReadEndReq_beside {m q : ℕ} {grp : ReadParam} (hi : Intact oob b)
    (hs : b.lba.Pairwise (· < ·)) (hm : b.lba[m]? = some lba) (hpos : 0 < lba)
    (hq : q * l2pgap < b.lba.length) (hne : q ≠ m / l2pgap) (hgrp : grp.lba = lba)
    (hpage : grp.piecePpa / l2pgap = b.ppa + q) :
  groupReadEndReq oob grp = grp
  := by
  unfold groupReadEndReq
  rw [groupOobCheck_eq hi hs hm hpos hq hgrp hpage, if_neg hne]

/-- After the read of a page beside that of the address one more read finds it. -/
theorem exactLoop_retry {m q fuel : ℕ} {grp : ReadParam} (hi : Intact oob b)
    (hs : b.lba.Pairwise (· < ·)) (hm : b.lba[m]? = some lba) (hpos : 0 < lba)
    (hq : q * l2pgap < b.lba.length) (hne : q ≠ m / l2pgap) (hle : q ≤ m / l2pgap + 1)
    (hge : m / l2pgap ≤ q + 1) (hgrp : grp.lba = lba) (hseg : grp.seg = some k)
    (hflag : grp.retryFlag = .notRetry) (hpage : grp.piecePpa / l2pgap = b.ppa + q) :
  exactLoop pr oob gp (fuel + 1) grp = .ok (b.ppa * l2pgap + m)
  := by
  have hmlt := (List.getElem?_eq_some_iff.mp hm).1
  have hretry : grp.retryPiece oob / l2pgap = b.ppa + m / l2pgap :=
    retryPiece_page hi hs hm hq hne hle hge hgrp hpage
  have hget : groupGet pr oob gp grp
      = .ok ({ grp with piecePpa := grp.retryPiece oob, retryFlag := .normalRetry }, true) := by
    unfold groupGet
    rw [hseg, hflag]
    rfl
  have hfound : groupReadEndReq oob
      { grp with piecePpa := grp.retryPiece oob, retryFlag := .normalRetry }
      = { grp with piecePpa := b.ppa * l2pgap + m, retryFlag := .dataFound } :=
    groupReadEndReq_found hi hs hm hpos hmlt hgrp hretry rfl
  refine bind_eq_ok.mpr ⟨_, hget, ?_⟩
  dsimp only
  rw [if_pos rfl, hfound]
  rfl

/-- The lookup of an address in its segment. -/
theorem exactLoop_found (hpr : pr.Bounded) (hi : i.Valid mapIdx) (hmade : Made pr i a)
    (hplaced : Placed oob i b off) (hj : i.tmap.lba[j]? = some lba)
    (hfind : gp.segs.find? (fun seg => seg.seq = k) = some a) :
  exactLoop pr oob gp 3 { lba := lba, seg := some k, retryFlag := .init, piecePpa := 0 }
    = .ok (b.ppa * l2pgap + (off + j))
  := by
  by_cases hstart : a.originalStart = lba
  · have hzero : j = 0 := by
      have hfirst := hmade.start
      rw [List.head?_eq_getElem?, ← hmade.originalStart, hstart] at hfirst
      apply index_unique hi.sorted hj hfirst
    refine bind_eq_ok.mpr ⟨_, groupGet_first hfind hstart, ?_⟩
    rw [hplaced.startPiece hmade, hzero]
    rfl
  · have hlt := start_lt_of_ne hi hmade hj hstart
    cases htype : i.type with
    | accurate =>
        refine bind_eq_ok.mpr ⟨_, groupGet_accurate hfind hstart (hmade.type.trans htype), ?_⟩
        rw [segmentGetAddr_accurate hi hmade hplaced hj hlt htype]
        rfl
    | approximate =>
        obtain ⟨q, hpredict, hqlen, hqle, hqge⟩ := hplaced.predict hpr hi hmade.start hj
        refine bind_eq_ok.mpr ⟨_, groupGet_approximate hfind hstart (hmade.type.trans htype), ?_⟩
        rw [segmentGetAddr_approximate hmade htype hpredict]
        have hpage : (b.ppa + q) * l2pgap / l2pgap = b.ppa + q := Nat.mul_div_cancel _ (by decide)
        have hpos : 0 < lba := by omega
        have hm := hplaced.lba j lba hj
        by_cases hq : q = (off + j) / l2pgap
        · dsimp only
          rw [if_pos rfl, groupReadEndReq_found hplaced.intact hplaced.sorted hm hpos
            (List.getElem?_eq_some_iff.mp hm).1 rfl hpage hq]
          rfl
        · dsimp only
          rw [if_pos rfl, groupReadEndReq_beside hplaced.intact hplaced.sorted hm hpos hqlen hq rfl
            hpage, if_neg (by simp)]
          apply exactLoop_retry hplaced.intact hplaced.sorted hm hpos hqlen hq hqle hqge rfl rfl rfl
            hpage

end Get

end Segment

end LeaFtl

end AppL
