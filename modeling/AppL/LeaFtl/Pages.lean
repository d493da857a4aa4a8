import AppL.LeaFtl.Lookup

/-!
# The pages of a batch

A list of addresses is written page by page, so that the pages of a batch have its addresses in
their order and its pieces are valid.  The slices of the addresses of a group are insertions that
are found in the batch again.
-/

namespace AppL

open Transition

namespace LeaFtl

variable {P : Type}

/-! ### Writing -/

/-- The device after addresses have been written to the pages from `ppa` on. -/
def Ftl.written (s : Ftl P) (ppa : ℕ) (lba : List ℕ) : Ftl P :=
  { s with
    bits := fun p => if ppa * l2pgap ≤ p ∧ p < ppa * l2pgap + lba.length then true else s.bits p
    oob := fun page i =>
      if ppa ≤ page ∧ i < l2pgap then lba[(page - ppa) * l2pgap + i]?.getD (s.oob page i)
      else s.oob page i
    used := fun page =>
      if ppa ≤ page ∧ (page - ppa) * l2pgap < lba.length then true else s.used page }

section Write

variable {s : Ftl P} {ppa : ℕ} {buf rest : List ℕ}

theorem Ftl.written_nil :
  s.written ppa [] = s
  := by
  have hbits : (fun p => if ppa * l2pgap ≤ p ∧ p < ppa * l2pgap + 0 then true else s.bits p)
      = s.bits := by
    funext p
    apply if_neg (by omega)
  have hused : (fun page => if ppa ≤ page ∧ (page - ppa) * l2pgap < 0 then true else s.used page)
      = s.used := by
    funext page
    apply if_neg (by omega)
  have hoob : (fun page i => if ppa ≤ page ∧ i < l2pgap then
      ([] : List ℕ)[(page - ppa) * l2pgap + i]?.getD (s.oob page i) else s.oob page i) = s.oob := by
    funext page i
    apply ite_id _
  unfold written
  rw [List.length_nil, hbits, hused, hoob]

/-- The pages of a list that is written after the page of another list. -/
theorem Ftl.written_written (hlen : buf.length = l2pgap ∨ rest = [] ∧ buf.length ≤ l2pgap) :
  (s.written ppa buf).written (ppa + 1) rest = s.written ppa (buf ++ rest)
  := by
  unfold written
  congr 1
  · funext p
    rw [List.length_append]
    unfold l2pgap at *
    dsimp only
    rcases hlen with hlen | ⟨rfl, hlen⟩
    · split
      · rw [if_pos (by omega)]
      · split
        · rw [if_pos (by omega)]
        · rw [if_neg (by omega)]
    · rw [List.length_nil, if_neg (by omega)]
      rfl
  · funext page i
    dsimp only
    by_cases hi : i < l2pgap
    · rcases Nat.lt_trichotomy page ppa with hlt | rfl | hgt
      · rw [if_neg (by omega), if_neg (by omega), if_neg (by omega)]
      · rw [if_neg (by omega), if_pos (by omega), if_pos (by omega), Nat.sub_self, Nat.zero_mul,
          Nat.zero_add]
        rcases hlen with hlen | ⟨rfl, -⟩
        · rw [List.getElem?_append_left (by omega)]
        · rw [List.append_nil]
      · have hsub : (page - ppa) * l2pgap = (page - (ppa + 1)) * l2pgap + l2pgap := by
          unfold l2pgap
          omega
        rw [if_pos (by omega), if_pos (by omega), if_pos (by omega), hsub]
        rw [List.getElem?_eq_none (l := buf) (by omega), Option.getD_none]
        rcases hlen with hlen | ⟨rfl, hlen⟩
        · rw [List.getElem?_append_right (by omega), hlen]
          congr 2
          omega
        · rw [List.append_nil, List.getElem?_nil, List.getElem?_eq_none (l := buf) (by omega)]
    · rw [if_neg (by omega), if_neg (by omega), if_neg (by omega)]
  · funext page
    rw [List.length_append]
    unfold l2pgap at *
    dsimp only
    rcases hlen with hlen | ⟨rfl, hlen⟩
    · split
      · rw [if_pos (by omega)]
      · split
        · rw [if_pos (by omega)]
        · rw [if_neg (by omega)]
    · rw [List.length_nil, if_neg (by omega)]
      rfl

/-- One page. -/
theorem Ftl.pmPageFlush_eq (hused : s.used ppa = false) (hpos : 0 < buf.length)
    (hlen : buf.length ≤ l2pgap) :
  s.pmPageFlush ppa buf = .ok (s.written ppa buf)
  := by
  unfold pmPageFlush
  refine bind_eq_ok.mpr ⟨(), require_eq_ok.mpr hused, ?_⟩
  unfold written
  apply congrArg Except.ok
  congr 1
  · funext page i
    by_cases hpage : page = ppa
    · rw [if_pos hpage, hpage, Nat.sub_self, Nat.zero_mul, Nat.zero_add]
      split
      · rfl
      · rw [List.getElem?_eq_none (by omega)]
        rfl
    · rw [if_neg hpage]
      split
      · rw [List.getElem?_eq_none (by unfold l2pgap at *; omega)]
        rfl
      · rfl
  · funext page
    unfold l2pgap at *
    by_cases hpage : page = ppa
    · rw [hpage, Function.update_self, if_pos (by omega)]
    · rw [Function.update_of_ne hpage, if_neg (by omega)]

/-- The loop over the addresses. -/
theorem Ftl.writeLoop_eq {partly : Bool} :
  ∀ {s : Ftl P} {ppa : ℕ} {buf : List ℕ}, buf.length < l2pgap →
    (partly = false → (buf ++ rest).length % l2pgap = 0) → (rest = [] → buf = []) →
    (∀ q, q * l2pgap < (buf ++ rest).length → s.used (ppa + q) = false) →
    writeLoop partly s ppa buf rest = .ok (s.written ppa (buf ++ rest),
      (buf ++ rest).zip (List.range' (ppa * l2pgap) (buf ++ rest).length))
  := by
  induction rest with
  | nil =>
      intro s ppa buf _ _ hnil _
      rw [hnil rfl, List.append_nil, written_nil]
      rfl
  | cons lba rest ih =>
      intro s ppa buf hbuf hwhole _ hunused
      have happend : buf ++ lba :: rest = buf ++ [lba] ++ rest := by simp
      have hlen : (buf ++ [lba]).length = buf.length + 1 := by simp
      rw [happend] at hwhole hunused ⊢
      unfold writeLoop
      dsimp only
      split
      · rename_i hfull
        have hcut : (buf ++ [lba]).length = l2pgap ∨ rest = [] ∧ (buf ++ [lba]).length ≤ l2pgap := by
          rcases hfull with hfull | ⟨-, hrest⟩
          · left
            apply hfull
          · right
            use hrest, by omega
        have hpage : s.used ppa = false := by
          have := hunused 0 (by rw [List.length_append, hlen]; omega)
          rwa [Nat.add_zero] at this
        refine bind_eq_ok.mpr ⟨_, pmPageFlush_eq hpage (by omega) (by omega), ?_⟩
        have hrec := @ih (s.written ppa (buf ++ [lba])) (ppa + 1) [] (by decide) ?_ (fun _ => rfl) ?_
        · refine bind_eq_ok.mpr ⟨_, hrec, ?_⟩
          rw [List.nil_append, written_written hcut]
          have hzip : (buf ++ [lba]).zip (List.range' (ppa * l2pgap) (buf ++ [lba]).length)
              ++ rest.zip (List.range' ((ppa + 1) * l2pgap) rest.length)
              = (buf ++ [lba] ++ rest).zip
                (List.range' (ppa * l2pgap) (buf ++ [lba] ++ rest).length) := by
            rcases hcut with hcut | ⟨rfl, -⟩
            · rw [← List.zip_append (by simp), @List.length_append _ (buf ++ [lba]), hcut,
                ← List.range'_append_1, Nat.add_mul, Nat.one_mul]
            · simp
          dsimp only
          rw [hzip]
          rfl
        · intro hpartly
          have hmod := hwhole hpartly
          rcases hcut with hcut | ⟨rfl, -⟩
          · rw [List.length_append, hcut] at hmod
            rw [List.nil_append]
            unfold l2pgap at *
            omega
          · rfl
        · intro q hq
          rw [List.nil_append] at hq
          have hcut' : (buf ++ [lba]).length = l2pgap := by
            rcases hcut with hcut | ⟨rfl, -⟩
            · apply hcut
            · exact absurd hq (by simp)
          have hold := hunused (q + 1) (by rw [List.length_append, hcut', Nat.add_mul]; omega)
          unfold written
          dsimp only
          rw [if_neg (by unfold l2pgap at *; omega), Nat.add_assoc, Nat.add_comm 1 q]
          apply hold
      · rename_i hfull
        rw [not_or, not_and] at hfull
        apply ih (by omega) hwhole _ hunused
        intro hrest
        have hpartly : partly = false := by
          cases partly with
          | false => rfl
          | true => exact absurd hrest (hfull.2 rfl)
        have hmod := hwhole hpartly
        rw [hrest, List.append_nil, hlen] at hmod
        unfold l2pgap at *
        omega

/-- The device after a batch has been written. -/
def Ftl.writeBatch (s : Ftl P) (b : Batch) : Ftl P :=
  { s.written b.ppa b.lba with log := s.log ++ [b] }

/-- A batch is written to pages that have not been used. -/
theorem Ftl.write_eq {partly : Bool} {b : Batch}
    (hwhole : partly = false → b.lba.length % l2pgap = 0)
    (hunused : ∀ q, q * l2pgap < b.lba.length → s.used (b.ppa + q) = false)
    (hsorted : b.lba.Pairwise (· ≤ ·)) :
  s.write partly b = .ok (s.writeBatch b, b.map)
  := by
  have hloop := @writeLoop_eq P b.lba partly s b.ppa [] (by decide) hwhole (fun _ => rfl) hunused
  refine bind_eq_ok.mpr ⟨_, hloop, ?_⟩
  have hchain : b.map.IsChain fun q r => q.1 ≤ r.1 := by
    apply List.Pairwise.isChain
    have hfst : (b.map.map Prod.fst).Pairwise (· ≤ ·) := by
      rw [Batch.map, List.map_fst_zip (by simp)]
      apply hsorted
    apply List.pairwise_map.mp hfst
  exact bind_eq_ok.mpr ⟨(), require_eq_ok.mpr hchain, rfl⟩

end Write

/-! ### Batches -/

/-- The pages of a batch are in one physical segment, and its pieces are numbers of 32 bits. -/
structure Batch.Lies (geo : Geometry) (b : Batch) : Prop where
  piece : b.ppa * l2pgap + b.lba.length ≤ uint32Max
  segment : ∀ q, q * l2pgap < b.lba.length → (b.ppa + q) / geo.pps = b.ppa / geo.pps

instance (geo : Geometry) (b : Batch) : Decidable (b.Lies geo) :=
  decidable_of_iff (b.ppa * l2pgap + b.lba.length ≤ uint32Max ∧ ∀ q < b.lba.length,
      q * l2pgap < b.lba.length → (b.ppa + q) / geo.pps = b.ppa / geo.pps)
    ⟨fun h => ⟨h.1, fun q hq => h.2 q (lt_of_le_of_lt (Nat.le_mul_of_pos_right q (by decide)) hq) hq⟩,
      fun h => ⟨h.piece, fun q _ => h.segment q⟩⟩

/-- A batch is on its pages. -/
structure Stored (geo : Geometry) (s : Ftl P) (b : Batch) : Prop where
  sorted : b.lba.Pairwise (· < ·)
  lba : ∀ l ∈ b.lba, l ≤ uint32Max
  lies : b.Lies geo
  intact : Intact s.oob b
  used : ∀ q, q * l2pgap < b.lba.length → s.used (b.ppa + q) = true

section Batches

variable {geo : Geometry} {s t : Ftl P} {b : Batch}

theorem Batch.map_fst (b : Batch) :
  b.map.map Prod.fst = b.lba
  := List.map_fst_zip (by simp)

theorem Batch.map_snd (b : Batch) :
  b.map.map Prod.snd = List.range' (b.ppa * l2pgap) b.map.length
  := by
  rw [Batch.map, List.map_snd_zip (by simp), List.length_zip, List.length_range', Nat.min_self]

/-- An address of a batch and its piece. -/
theorem Batch.mem_map {l p : ℕ} :
  (l, p) ∈ b.map ↔ ∃ m, b.lba[m]? = some l ∧ p = b.ppa * l2pgap + m
  := by
  rw [List.mem_iff_getElem?]
  constructor
  · rintro ⟨m, hm⟩
    obtain ⟨hl, hp⟩ := List.getElem?_zip_eq_some.mp hm
    use m, hl
    rw [List.getElem?_range' (List.getElem?_eq_some_iff.mp hl).1, Nat.one_mul] at hp
    apply (Option.some.inj hp).symm
  · rintro ⟨m, hl, rfl⟩
    refine ⟨m, List.getElem?_zip_eq_some.mpr ⟨hl, ?_⟩⟩
    rw [List.getElem?_range' (List.getElem?_eq_some_iff.mp hl).1, Nat.one_mul]

/-- The OOB of a piece of a batch. -/
theorem Intact.piece {oob : ℕ → ℕ → ℕ} (h : Intact oob b) {m l : ℕ} (hm : b.lba[m]? = some l) :
  oob ((b.ppa * l2pgap + m) / l2pgap) ((b.ppa * l2pgap + m) % l2pgap) = l
  := by
  have hlt := (List.getElem?_eq_some_iff.mp hm).1
  have hq : m / l2pgap * l2pgap < b.lba.length := lt_of_le_of_lt (Nat.div_mul_le_self m l2pgap) hlt
  rw [Nat.mul_comm, Nat.mul_add_div (by decide), Nat.mul_add_mod, h _ _ hq (Nat.mod_lt _ (by decide)),
    Nat.mul_comm, Nat.div_add_mod, hm]
  rfl

/-- The page of a piece of a batch. -/
theorem Stored.used_piece (h : Stored geo s b) {m l : ℕ} (hm : b.lba[m]? = some l) :
  s.used ((b.ppa * l2pgap + m) / l2pgap) = true
  := by
  have hlt := (List.getElem?_eq_some_iff.mp hm).1
  rw [Nat.mul_comm, Nat.mul_add_div (by decide)]
  apply h.used _ (lt_of_le_of_lt (Nat.div_mul_le_self m l2pgap) hlt)

/-- The physical segment of a piece of a batch. -/
theorem Batch.Lies.segment_piece (h : b.Lies geo) {m l : ℕ} (hm : b.lba[m]? = some l) :
  (b.ppa * l2pgap + m) / l2pgap / geo.pps = b.ppa / geo.pps
  := by
  have hlt := (List.getElem?_eq_some_iff.mp hm).1
  rw [Nat.mul_comm, Nat.mul_add_div (by decide)]
  apply h.segment _ (lt_of_le_of_lt (Nat.div_mul_le_self m l2pgap) hlt)

/-- Only the pages of the batch matter. -/
theorem Stored.congr (h : Stored geo s b)
    (hpages : ∀ q, q * l2pgap < b.lba.length → t.oob (b.ppa + q) = s.oob (b.ppa + q)
      ∧ t.used (b.ppa + q) = s.used (b.ppa + q)) :
  Stored geo t b
  where
    sorted := h.sorted
    lba := h.lba
    lies := h.lies
    intact q r hq hr := by rw [(hpages q hq).1, h.intact q r hq hr]
    used q hq := by rw [(hpages q hq).2, h.used q hq]

/-- A batch that is written is on its pages. -/
theorem stored_written (hsorted : b.lba.Pairwise (· < ·)) (hlba : ∀ l ∈ b.lba, l ≤ uint32Max)
    (hlies : b.Lies geo) (hunused : ∀ q, q * l2pgap < b.lba.length → s.used (b.ppa + q) = false)
    (hblank : ∀ page i, s.used page = false → s.oob page i = 0) :
  Stored geo (s.written b.ppa b.lba) b
  where
    sorted := hsorted
    lba := hlba
    lies := hlies
    intact q r hq hr := by
      unfold Ftl.written
      dsimp only
      rw [if_pos ⟨by omega, hr⟩, Nat.add_sub_cancel_left, hblank _ _ (hunused q hq)]
    used q hq := by
      unfold Ftl.written
      dsimp only
      rw [Nat.add_sub_cancel_left, if_pos ⟨by omega, hq⟩]

/-- The pages that were used before are left alone. -/
theorem Ftl.written_other {page ppa : ℕ} {lba : List ℕ} (hused : s.used page = true)
    (hunused : ∀ q, q * l2pgap < lba.length → s.used (ppa + q) = false) :
  (s.written ppa lba).oob page = s.oob page ∧ (s.written ppa lba).used page = s.used page
  := by
  have hout : ¬ (ppa ≤ page ∧ (page - ppa) * l2pgap < lba.length) := by
    rintro ⟨hle, hlt⟩
    have hfalse := hunused (page - ppa) hlt
    rw [Nat.add_sub_cancel' hle, hused] at hfalse
    cases hfalse
  unfold written
  dsimp only
  constructor
  · funext i
    split
    · rename_i hle
      rw [List.getElem?_eq_none (by unfold l2pgap at *; omega)]
      rfl
    · rfl
  · rw [if_neg hout]

end Batches

/-! ### Insertions of slices -/

/-- The call of `group_insert` for a slice, with the address of the `PLR`. -/
def toInsert (args : List (ℕ × ℕ) × SegmentType × ℕ) (ptr : ℕ) : Insert :=
  ⟨⟨args.1.map Prod.fst, args.1.map Prod.snd⟩, args.2.1, args.2.2, ptr⟩

section Insertions

variable {map : List (ℕ × ℕ)} {slice : Slice} {g : ℕ}

/-- The insertion of a slice is one that the callers of `group_insert` make. -/
theorem Slice.insertArgs_valid (hpos : 0 < slice.length)
    (hend : slice.start + slice.length ≤ map.length) (hacc : slice.Strided (Ftl.intervals map))
    (hinc : map.Pairwise fun q r => q.1 < r.1) (hgroup : ∀ q ∈ map, q.1 / mapInTrans = g) :
  ∃ type n, slice.insertArgs map = .ok ((map.drop slice.start).take slice.length, type, n)
    ∧ ∀ ptr, (toInsert ((map.drop slice.start).take slice.length, type, n) ptr).Valid g
  := by
  obtain ⟨type, n, hargs, hstride⟩ := slice.insertArgs_eq hpos hend hacc
  have hsub : ((map.drop slice.start).take slice.length).Sublist map
    := (List.take_sublist _ _).trans (List.drop_sublist _ _)
  have hlen : ((map.drop slice.start).take slice.length).length = slice.length := by
    rw [List.length_take, List.length_drop]
    omega
  use type, n, hargs
  intro ptr
  constructor
  · apply List.ne_nil_of_length_pos
    change 0 < (List.map _ _).length
    rw [List.length_map, hlen]
    apply hpos
  · apply List.pairwise_map.mpr (hinc.sublist hsub)
  · change (List.map _ _).length = (List.map _ _).length
    rw [List.length_map, List.length_map]
  · intro l hl
    obtain ⟨q, hq, rfl⟩ := List.mem_map.mp hl
    apply hgroup q (hsub.subset hq)
  · intro htype
    change (List.map Prod.fst _).IsChain _
    rw [List.isChain_map, List.isChain_iff_getElem]
    intro j hj
    rw [hlen] at hj
    have hj' : slice.start + j + 1 < map.length := by omega
    have hint := hstride htype (slice.start + j) (by omega) (by omega)
    rw [intervals_getElem? hj', Option.some.injEq] at hint
    have hlt := List.pairwise_iff_getElem.mp hinc (slice.start + j) (slice.start + j + 1)
      (by omega) hj' (by omega)
    simp only [List.getElem_take, List.getElem_drop]
    change map[slice.start + j + 1].1 = map[slice.start + j].1 + n
    omega

end Insertions

end LeaFtl

end AppL
