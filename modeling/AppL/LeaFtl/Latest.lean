import AppL.LeaFtl.Pages

/-!
# The latest copies of addresses

Between two operations exactly the pieces of the latest copies are valid, and a lookup finds the
piece of the latest copy.  While the mapping is updated, the copies that have been written but
are not yet in the mapping are valid too, and the old copies of some addresses are gone.
-/

namespace AppL

open Transition

namespace LeaFtl

variable {P : Type}

/-- The latest copy of an address in all that has been written is at the piece `p`. -/
def Latest (log : List Batch) (lba p : ℕ) : Prop :=
  ∃ (k : ℕ) (b : Batch) (m : ℕ), log[k]? = some b ∧ b.lba[m]? = some lba
    ∧ p = b.ppa * l2pgap + m ∧ ∀ (j : ℕ) (b' : Batch), k < j → log[j]? = some b' → lba ∉ b'.lba

/-- The last insertion that has the address has the piece `p` for it. -/
def Mapped (h : List Insert) (lba p : ℕ) : Prop :=
  ∃ (k : ℕ) (i : Insert) (j : ℕ), IsNewest h lba k ∧ h[k]? = some i
    ∧ i.tmap.lba[j]? = some lba ∧ i.tmap.piecePpa[j]? = some p

/-- The addresses and pieces of an insertion are those of a batch from `off` on. -/
structure Comes (i : Insert) (b : Batch) (off : ℕ) : Prop where
  lba : ∀ j l, i.tmap.lba[j]? = some l → b.lba[off + j]? = some l
  piece : ∀ j p, i.tmap.piecePpa[j]? = some p → p = b.ppa * l2pgap + (off + j)

/-- The state while the addresses `pending` are still to be put into the mapping; the old copies
of the addresses `gone` are not valid any more. -/
structure Current (pr : Predictor P) (geo : Geometry) (h : List Insert) (gone : List ℕ)
    (pending : List (ℕ × ℕ)) (s : Ftl P) : Prop where
  inv : Inv pr s.mainGp h s.globals
  stands : ∀ lba k i, lba ∉ gone → IsNewest h lba k → h[k]? = some i →
    ∃ b off, Stored geo s b ∧ Comes i b off
  valid : ∀ p, s.bits p = true
    ↔ (∃ lba, lba ∉ gone ∧ Mapped h lba p) ∨ ∃ lba, (lba, p) ∈ pending
  apart : ∀ lba p, (lba, p) ∈ pending → lba ∉ gone → ¬ Mapped h lba p
  pendingOob : ∀ q ∈ pending, s.oob (q.2 / l2pgap) (q.2 % l2pgap) = q.1
  blank : ∀ page i, s.used page = false → s.oob page i = 0
  latest : ∀ lba p, Latest s.log lba p
    ↔ (lba, p) ∈ pending ∨ lba ∉ pending.map Prod.fst ∧ Mapped h lba p

section Mapped

variable {h : List Insert} {lba p p' k k' : ℕ} {i : Insert} {b : Batch} {log : List Batch}

theorem IsNewest.unique (hk : IsNewest h lba k) (hk' : IsNewest h lba k') :
  k = k'
  := by
  obtain ⟨i, hi, hmem, hlater⟩ := hk
  obtain ⟨i', hi', hmem', hlater'⟩ := hk'
  rcases Nat.lt_trichotomy k k' with hlt | heq | hgt
  · exact absurd hmem' (hlater k' i' hlt hi')
  · apply heq
  · exact absurd hmem (hlater' k i hgt hi)

/-- An insertion gives its addresses their pieces. -/
theorem mapped_insertion :
  Mapped (h ++ [i]) lba p ↔ if lba ∈ i.tmap.lba then
    ∃ j : ℕ, i.tmap.lba[j]? = some lba ∧ i.tmap.piecePpa[j]? = some p else Mapped h lba p
  := by
  have hlast : (h ++ [i])[h.length]? = some i := List.getElem?_concat_length
  unfold Mapped
  simp only [isNewest_append]
  split
  · constructor
    · rintro ⟨k, i', j, rfl, hi', hlba, hp⟩
      rw [hlast] at hi'
      cases hi'
      use j, hlba, hp
    · rintro ⟨j, hlba, hp⟩
      use h.length, i, j, rfl, hlast, hlba, hp
  · have hold : ∀ k i', IsNewest h lba k → ((h ++ [i])[k]? = some i' ↔ h[k]? = some i') := by
      rintro k i' ⟨i'', hi'', -⟩
      rw [List.getElem?_append_left (List.getElem?_eq_some_iff.mp hi'').1]
    constructor
    · rintro ⟨k, i', j, hk, hi', hrest⟩
      exact ⟨k, i', j, hk, (hold k i' hk).mp hi', hrest⟩
    · rintro ⟨k, i', j, hk, hi', hrest⟩
      exact ⟨k, i', j, hk, (hold k i' hk).mpr hi', hrest⟩

/-- The latest copies after a batch has been written. -/
theorem latest_batch :
  Latest (log ++ [b]) lba p ↔ if lba ∈ b.lba then (lba, p) ∈ b.map else Latest log lba p
  := by
  have hlast : (log ++ [b])[log.length]? = some b := List.getElem?_concat_length
  have hbound : ∀ {j : ℕ} {b' : Batch}, (log ++ [b])[j]? = some b' → j < log.length ∨ j = log.length
    := by
    intro j b' hj
    have hlt := (List.getElem?_eq_some_iff.mp hj).1
    rw [List.length_append, List.length_singleton] at hlt
    omega
  split
  · rename_i hin
    rw [Batch.mem_map]
    constructor
    · rintro ⟨k, b', m, hk, hm, hp, hlater⟩
      rcases hbound hk with hlt | rfl
      · exact absurd hin (hlater log.length b hlt hlast)
      · rw [hlast] at hk
        cases hk
        use m, hm, hp
    · rintro ⟨m, hm, hp⟩
      use log.length, b, m, hlast, hm, hp
      intro j b' hj hb'
      have := hbound hb'
      omega
  · rename_i hout
    constructor
    · rintro ⟨k, b', m, hk, hm, hp, hlater⟩
      rcases hbound hk with hlt | rfl
      · rw [List.getElem?_append_left hlt] at hk
        use k, b', m, hk, hm, hp
        intro j b'' hj hb''
        apply hlater j b'' hj
        rw [List.getElem?_append_left (List.getElem?_eq_some_iff.mp hb'').1]
        apply hb''
      · rw [hlast] at hk
        cases hk
        exact absurd (List.mem_of_getElem? hm) hout
    · rintro ⟨k, b', m, hk, hm, hp, hlater⟩
      have hlt := (List.getElem?_eq_some_iff.mp hk).1
      refine ⟨k, b', m, by rw [List.getElem?_append_left hlt]; exact hk, hm, hp, ?_⟩
      intro j b'' hj hb''
      rcases hbound hb'' with hlt' | rfl
      · rw [List.getElem?_append_left hlt'] at hb''
        apply hlater j b'' hj hb''
      · rw [hlast] at hb''
        cases hb''
        apply hout

end Mapped

/-! ### Lookups -/

section Lookup

variable {pr : Predictor P} {geo : Geometry} {h : List Insert} {gone : List ℕ}
  {pending : List (ℕ × ℕ)} {s : Ftl P} {lba p p' : ℕ}

/-- The place of a mapped address. -/
theorem Current.place (hc : Current pr geo h gone pending s) (hgone : lba ∉ gone)
    (hp : Mapped h lba p) :
  ∃ b m, Stored geo s b ∧ b.lba[m]? = some lba ∧ p = b.ppa * l2pgap + m
  := by
  obtain ⟨k, i, j, hk, hi, hlba, hpiece⟩ := hp
  obtain ⟨b, off, hstored, hcomes⟩ := hc.stands lba k i hgone hk hi
  use b, off + j, hstored, hcomes.lba j lba hlba, hcomes.piece j p hpiece

theorem Current.oob (hc : Current pr geo h gone pending s) (hgone : lba ∉ gone)
    (hp : Mapped h lba p) :
  s.oob (p / l2pgap) (p % l2pgap) = lba
  := by
  obtain ⟨b, m, hstored, hm, rfl⟩ := hc.place hgone hp
  apply hstored.intact.piece hm

theorem Current.lt_max (hc : Current pr geo h gone pending s) (hgone : lba ∉ gone)
    (hp : Mapped h lba p) :
  p < uint32Max
  := by
  obtain ⟨b, m, hstored, hm, rfl⟩ := hc.place hgone hp
  have hlt := (List.getElem?_eq_some_iff.mp hm).1
  have := hstored.lies.piece
  omega

/-- The segment of an address that has been inserted. -/
theorem Inv.segment {gps : ℕ → Group P} {g : Globals} (hinv : Inv pr gps h g) {k : ℕ}
    (hk : IsNewest h lba k) :
  ∃ i a, h[k]? = some i ∧ i.Valid (lba / mapInTrans) ∧ Made pr i a
    ∧ groupGetSegment g (gps (lba / mapInTrans)) lba = some k
    ∧ (gps (lba / mapInTrans)).segs.find? (fun seg => seg.seq = k) = some a
  := by
  have hlist := (hinv.newest lba k).mpr hk
  obtain ⟨hlive, -⟩ := hinv.newest_live hlist
  obtain ⟨a', ha', hseq'⟩ := List.mem_map.mp hlive
  have hsome : ((gps (lba / mapInTrans)).segs.find? fun seg => seg.seq = k).isSome := by
    rw [List.find?_isSome]
    use a', ha', decide_eq_true hseq'
  obtain ⟨a, ha⟩ := Option.isSome_iff_exists.mp hsome
  have hseq : a.seq = k
    := of_decide_eq_true (List.find?_some (p := fun seg : Segment P => decide (seg.seq = k)) ha)
  obtain ⟨i, hi, hvalid, hmade⟩ := hinv.made _ a (List.mem_of_find?_eq_some ha)
  rw [hseq] at hi
  refine ⟨i, a, hi, hvalid, hmade, ?_, ha⟩
  unfold groupGetSegment
  split
  · rename_i hnone
    have hnil : (gps (lba / mapInTrans)).segs = [] := by
      unfold Group.segs
      rw [hnone]
      rfl
    rw [hnil] at ha'
    cases ha'
  · apply hlist

/-- A lookup finds the piece of an address whose copy is not gone. -/
theorem Current.exactPiecePpa (hpr : pr.Bounded) (hc : Current pr geo h gone pending s)
    (hgone : lba ∉ gone) (hp : Mapped h lba p) :
  s.exactPiecePpa pr lba = .ok p
  := by
  obtain ⟨k, i, j, hk, hi, hlba, hpiece⟩ := hp
  obtain ⟨b, off, hstored, hcomes⟩ := hc.stands lba k i hgone hk hi
  obtain ⟨i', a, hi', hvalid, hmade, hget, hfind⟩ := hc.inv.segment hk
  rw [hi] at hi'
  cases hi'
  have hplaced : Placed s.oob i b off := ⟨hstored.intact, hstored.sorted, hcomes.lba, hcomes.piece⟩
  rw [hcomes.piece j p hpiece]
  unfold Ftl.exactPiecePpa groupGetExactPiecePpa
  rw [hget]
  apply exactLoop_found hpr hvalid hmade hplaced hlba hfind

/-- The piece of an address is known from the lookup. -/
theorem Current.mapped_unique (hpr : pr.Bounded) (hc : Current pr geo h gone pending s)
    (hgone : lba ∉ gone) (hp : Mapped h lba p) (hp' : Mapped h lba p') :
  p = p'
  := by
  have hfirst := hc.exactPiecePpa hpr hgone hp
  rw [hc.exactPiecePpa hpr hgone hp'] at hfirst
  apply (Except.ok.inj hfirst).symm

/-- An address that has been inserted has a piece. -/
theorem Inv.exists_mapped {gps : ℕ → Group P} {g : Globals} (hinv : Inv pr gps h g) {k : ℕ}
    (hk : IsNewest h lba k) :
  ∃ p, Mapped h lba p
  := by
  obtain ⟨i, -, hi, hvalid, -⟩ := hinv.segment hk
  obtain ⟨i', hi', hmem, -⟩ := id hk
  rw [hi] at hi'
  cases hi'
  obtain ⟨j, hj⟩ := List.mem_iff_getElem?.mp hmem
  have hlt := (List.getElem?_eq_some_iff.mp hj).1
  rw [← hvalid.pieces] at hlt
  exact ⟨_, k, i, j, hk, hi, hj, List.getElem?_eq_getElem hlt⟩

/-- A lookup of an address that is not in the mapping finds nothing. -/
theorem Current.exactPiecePpa_none (hc : Current pr geo h gone pending s)
    (hp : ∀ p, ¬ Mapped h lba p) :
  s.exactPiecePpa pr lba = .ok uint32Max
  := by
  have hnone : groupGetSegment s.globals (s.mainGp (lba / mapInTrans)) lba = none := by
    unfold groupGetSegment
    split
    · rfl
    · rw [Option.eq_none_iff_forall_not_mem]
      intro k hk
      obtain ⟨p, hmapped⟩ := hc.inv.exists_mapped ((hc.inv.newest lba k).mp hk)
      apply hp p hmapped
  unfold Ftl.exactPiecePpa groupGetExactPiecePpa
  rw [hnone]
  rfl

/-- Only the members of the lists matter. -/
theorem Current.congr {gone' : List ℕ} {pending' : List (ℕ × ℕ)}
    (hc : Current pr geo h gone pending s) (hgone : ∀ l, l ∈ gone' ↔ l ∈ gone)
    (hpending : ∀ q, q ∈ pending' ↔ q ∈ pending) :
  Current pr geo h gone' pending' s
  where
    inv := hc.inv
    stands lba k i hlba := hc.stands lba k i fun hmem => hlba ((hgone lba).mpr hmem)
    valid p := by simp only [hgone, hpending, hc.valid p]
    apart lba p hmem hlba := hc.apart lba p ((hpending _).mp hmem) fun h => hlba ((hgone lba).mpr h)
    pendingOob q hq := hc.pendingOob q ((hpending q).mp hq)
    blank := hc.blank
    latest lba p := by
      rw [hc.latest lba p, hpending]
      simp only [List.mem_map, hpending]

/-! ### Invalidations -/

/-- What an update of the mapping leaves alone. -/
structure SameMedium (s t : Ftl P) : Prop where
  oob : t.oob = s.oob
  used : t.used = s.used
  log : t.log = s.log

theorem SameMedium.refl (s : Ftl P) :
  SameMedium s s
  := ⟨rfl, rfl, rfl⟩

theorem SameMedium.trans {s t u : Ftl P} (h : SameMedium s t) (h' : SameMedium t u) :
  SameMedium s u
  := ⟨h'.oob.trans h.oob, h'.used.trans h.used, h'.log.trans h.log⟩

theorem SameMedium.stored {s t : Ftl P} {b : Batch} (h : SameMedium s t) (hb : Stored geo s b) :
  Stored geo t b
  := hb.congr fun q _ => ⟨by rw [h.oob], by rw [h.used]⟩

/-- The old copy of an address is made invalid. -/
theorem Current.invalidate (hpr : pr.Bounded) (hc : Current pr geo h gone pending s)
    (hgone : lba ∉ gone) (hp : Mapped h lba p) :
  Current pr geo h (lba :: gone) pending { s with bits := Function.update s.bits p false }
  where
    inv := hc.inv
    stands l k i hl hk hi := by
      obtain ⟨b, off, hb, hcomes⟩ := hc.stands l k i (fun h => hl (List.mem_cons_of_mem _ h)) hk hi
      exact ⟨b, off, hb.congr fun q _ => ⟨rfl, rfl⟩, hcomes⟩
    valid p' := by
      dsimp only
      by_cases heq : p' = p
      · rw [heq, Function.update_self]
        refine iff_of_false Bool.false_ne_true ?_
        rintro (⟨l, hl, hmapped⟩ | ⟨l, hmem⟩)
        · have hsame := hc.oob (fun h => hl (List.mem_cons_of_mem _ h)) hmapped
          rw [hc.oob hgone hp] at hsame
          exact hl (hsame ▸ List.mem_cons_self)
        · have hsame := hc.pendingOob _ hmem
          rw [hc.oob hgone hp] at hsame
          dsimp only at hsame
          rw [← hsame] at hmem
          apply hc.apart lba p hmem hgone hp
      · rw [Function.update_of_ne heq, hc.valid p']
        constructor
        · rintro (⟨l, hl, hmapped⟩ | hmem)
          · refine .inl ⟨l, ?_, hmapped⟩
            intro hmem
            obtain rfl | hmem := List.mem_cons.mp hmem
            · apply heq (hc.mapped_unique hpr hgone hmapped hp)
            · apply hl hmem
          · right
            apply hmem
        · rintro (⟨l, hl, hmapped⟩ | hmem)
          · left
            exact ⟨l, fun h => hl (List.mem_cons_of_mem _ h), hmapped⟩
          · right
            apply hmem
    apart l p' hmem hl := hc.apart l p' hmem fun h => hl (List.mem_cons_of_mem _ h)
    pendingOob := hc.pendingOob
    blank := hc.blank
    latest := hc.latest

/-- An address that is not in the mapping has no copy that could be gone. -/
theorem Current.absent (hc : Current pr geo h gone pending s) (hp : ∀ p, ¬ Mapped h lba p) :
  Current pr geo h (lba :: gone) pending s
  where
    inv := hc.inv
    stands l k i hl := hc.stands l k i fun h => hl (List.mem_cons_of_mem _ h)
    valid p' := by
      rw [hc.valid p']
      constructor
      · rintro (⟨l, hl, hmapped⟩ | hmem)
        · refine .inl ⟨l, ?_, hmapped⟩
          intro hmem
          obtain rfl | hmem := List.mem_cons.mp hmem
          · apply hp p' hmapped
          · apply hl hmem
        · right
          apply hmem
      · rintro (⟨l, hl, hmapped⟩ | hmem)
        · left
          exact ⟨l, fun h => hl (List.mem_cons_of_mem _ h), hmapped⟩
        · right
          apply hmem
    apart l p' hmem hl := hc.apart l p' hmem fun h => hl (List.mem_cons_of_mem _ h)
    pendingOob := hc.pendingOob
    blank := hc.blank
    latest := hc.latest

/-- The old copies of the addresses of a group are looked up and made invalid. -/
theorem Current.findExactPiecePpa (hpr : pr.Bounded) {part : List (ℕ × ℕ)} :
  ∀ {gone : List ℕ} {s : Ftl P}, Current pr geo h gone pending s → (part.map Prod.fst).Nodup →
    (∀ q ∈ part, q.1 ∉ gone) →
    ∃ s', s.leaMappingFindExactPiecePpa pr part = .ok s'
      ∧ Current pr geo h (part.map Prod.fst ++ gone) pending s'
      ∧ SameMedium s s' ∧ s'.mainGp = s.mainGp
  := by
  induction part with
  | nil =>
      intro gone s hc _ _
      exact ⟨s, rfl, hc, SameMedium.refl s, rfl⟩
  | cons q part ih =>
      intro gone s hc hnodup hout
      have hq : q.1 ∉ gone := hout q List.mem_cons_self
      obtain ⟨hfirst, hnodup⟩ := List.nodup_cons.mp hnodup
      have hout' : ∀ r ∈ part, r.1 ∉ q.1 :: gone := by
        intro r hr hmem
        obtain heq | hmem := List.mem_cons.mp hmem
        · exact hfirst (heq ▸ List.mem_map_of_mem hr)
        · apply hout r (List.mem_cons_of_mem q hr) hmem
      have hmem : ∀ l, l ∈ (q :: part).map Prod.fst ++ gone ↔ l ∈ part.map Prod.fst ++ q.1 :: gone := by
        intro l
        simp only [List.map_cons, List.cons_append, List.mem_cons, List.mem_append]
        tauto
      by_cases hmapped : ∃ p, Mapped h q.1 p
      · obtain ⟨p, hp⟩ := hmapped
        obtain ⟨s', hs', hc', hsame, hgp⟩ := ih (hc.invalidate hpr hq hp) hnodup hout'
        refine ⟨s', ?_, hc'.congr hmem fun _ => Iff.rfl, ⟨hsame.oob, hsame.used, hsame.log⟩, hgp⟩
        refine bind_eq_ok.mpr ⟨_, bind_eq_ok.mpr ⟨p, hc.exactPiecePpa hpr hq hp, ?_⟩, hs'⟩
        rw [if_pos (hc.lt_max hq hp).ne]
        rfl
      · have hnone : ∀ p, ¬ Mapped h q.1 p := fun p hp => hmapped ⟨p, hp⟩
        obtain ⟨s', hs', hc', hsame, hgp⟩ := ih (hc.absent hnone) hnodup hout'
        refine ⟨s', ?_, hc'.congr hmem fun _ => Iff.rfl, hsame, hgp⟩
        refine bind_eq_ok.mpr ⟨s, bind_eq_ok.mpr ⟨uint32Max, hc.exactPiecePpa_none hnone, ?_⟩, hs'⟩
        rw [if_neg (not_not.mpr rfl)]
        rfl

end Lookup

/-! ### Insertions -/

section Insert

variable {pr : Predictor P} {geo : Geometry} {h : List Insert} {gone : List ℕ}
  {pending part : List (ℕ × ℕ)} {s : Ftl P} {b : Batch} {off g : ℕ}

theorem mem_part {l p : ℕ} :
  (∃ j : ℕ, (part.map Prod.fst)[j]? = some l ∧ (part.map Prod.snd)[j]? = some p) ↔ (l, p) ∈ part
  := by
  simp only [List.getElem?_map, Option.map_eq_some_iff, List.mem_iff_getElem?]
  constructor
  · rintro ⟨j, ⟨q, hq, rfl⟩, r, hr, rfl⟩
    rw [hq] at hr
    cases hr
    use j, hq
  · rintro ⟨j, hj⟩
    exact ⟨j, ⟨_, hj, rfl⟩, _, hj, rfl⟩

theorem mapped_insert {args : List (ℕ × ℕ) × SegmentType × ℕ} {ptr l p : ℕ} :
  Mapped (h ++ [toInsert args ptr]) l p
    ↔ if l ∈ args.1.map Prod.fst then (l, p) ∈ args.1 else Mapped h l p
  := by
  rw [mapped_insertion, ← mem_part]
  rfl

/-- A slice is put into the mapping. -/
theorem Current.insertGroup {type : SegmentType} {n : ℕ} (alloc : ℕ → ℕ)
    (hc : Current pr geo h (part.map Prod.fst ++ gone) (part ++ pending) s)
    (hi : ∀ ptr, (toInsert (part, type, n) ptr).Valid g)
    (hguard : ∀ a ∈ (s.mainGp g).level0, mistaken (toInsert (part, type, n) 0) a = false)
    (hb : Stored geo s b) (hcomes : ∀ ptr, Comes (toInsert (part, type, n) ptr) b off)
    (hout : ∀ q ∈ part, q.1 ∉ gone ∧ q.1 ∉ pending.map Prod.fst) :
  ∃ s' h', s.insertGroup pr alloc g part type n = .ok s' ∧ Current pr geo h' gone pending s'
    ∧ SameMedium s s'
    ∧ ∀ g', ∀ a ∈ (s'.mainGp g').level0, a ∈ (s.mainGp g').level0 ∨ a.start ∈ part.map Prod.fst
  := by
  have hmem : ∀ {l : ℕ}, l ∈ part.map Prod.fst → l ∉ gone ∧ l ∉ pending.map Prod.fst := by
    intro l hl
    obtain ⟨q, hq, rfl⟩ := List.mem_map.mp hl
    apply hout q hq
  obtain ⟨i, hieq⟩ : ∃ i, i = toInsert (part, type, n) (alloc s.globals.cnt) := ⟨_, rfl⟩
  have hvalid : i.Valid g := hieq ▸ hi _
  have hlba : i.tmap.lba = part.map Prod.fst := by rw [hieq]; rfl
  have hidx := hc.inv.index g
  obtain ⟨globals, gp, hstep, hinv⟩ := groupInsert_inv hc.inv hvalid (by rw [hieq]; exact hguard)
  obtain ⟨_, _, hstep', hins⟩ := @groupInsert_inserted P pr i s.globals (s.mainGp g)
    (by rw [hidx]; exact hvalid) (hc.inv.cached g) (hc.inv.ordered g)
    (by rw [hidx]; exact hc.inv.crb g)
  rw [hstep] at hstep'
  cases hstep'
  refine ⟨{ s with globals := globals, mainGp := Function.update s.mainGp g gp }, h ++ [i], ?_, ?_,
    ⟨rfl, rfl, rfl⟩, ?_⟩
  · rw [hieq] at hstep
    exact bind_eq_ok.mpr ⟨_, hstep, rfl⟩
  · have hmapped : ∀ {l p : ℕ}, Mapped (h ++ [i]) l p
        ↔ if l ∈ part.map Prod.fst then (l, p) ∈ part else Mapped h l p := by
      intro l p
      rw [hieq, mapped_insert]
    have hfst : ∀ {l p : ℕ}, (l, p) ∈ part → l ∈ part.map Prod.fst
      := fun hq => List.mem_map_of_mem (f := Prod.fst) hq
    constructor
    · apply hinv
    · intro l k i' hl hk hi'
      rw [isNewest_append, hlba] at hk
      split at hk
      · rw [hk, List.getElem?_concat_length] at hi'
        cases hi'
        rw [hieq]
        exact ⟨b, off, hb.congr fun q _ => ⟨rfl, rfl⟩, hcomes _⟩
      · rename_i hnew
        obtain ⟨i'', hi'', -⟩ := id hk
        rw [List.getElem?_append_left (List.getElem?_eq_some_iff.mp hi'').1] at hi'
        have hl' : l ∉ part.map Prod.fst ++ gone
          := fun h => (List.mem_append.mp h).elim hnew hl
        obtain ⟨b', off', hb', hcomes'⟩ := hc.stands l k i' hl' hk hi'
        exact ⟨b', off', hb'.congr fun q _ => ⟨rfl, rfl⟩, hcomes'⟩
    · intro p
      dsimp only
      rw [hc.valid p]
      simp only [hmapped, List.mem_append, not_or]
      constructor
      · rintro (⟨l, ⟨hnew, hl⟩, hp⟩ | ⟨l, hp | hp⟩)
        · left
          use l, hl, by rw [if_neg hnew]; exact hp
        · left
          use l, (hmem (hfst hp)).1, by rw [if_pos (hfst hp)]; exact hp
        · right
          use l, hp
      · rintro (⟨l, hl, hp⟩ | ⟨l, hp⟩)
        · split at hp
          · right
            use l, .inl hp
          · rename_i hnew
            left
            exact ⟨l, ⟨hnew, hl⟩, hp⟩
        · right
          use l, .inr hp
    · intro l p hp hl hmap
      have hpend : l ∈ pending.map Prod.fst := List.mem_map_of_mem (f := Prod.fst) hp
      have hnew : l ∉ part.map Prod.fst := fun h => (hmem h).2 hpend
      rw [hmapped, if_neg hnew] at hmap
      apply hc.apart l p (List.mem_append_right _ hp)
        (fun h => (List.mem_append.mp h).elim hnew hl) hmap
    · intro q hq
      apply hc.pendingOob q (List.mem_append_right _ hq)
    · apply hc.blank
    · intro l p
      dsimp only
      rw [hc.latest l p, hmapped, List.map_append]
      simp only [List.mem_append, not_or]
      constructor
      · rintro ((hp | hp) | ⟨⟨hnew, hpend⟩, hp⟩)
        · right
          use (hmem (hfst hp)).2, by rw [if_pos (hfst hp)]; exact hp
        · left
          apply hp
        · right
          use hpend, by rw [if_neg hnew]; exact hp
      · rintro (hp | ⟨hpend, hp⟩)
        · left
          right
          apply hp
        · split at hp
          · left
            left
            apply hp
          · rename_i hnew
            right
            exact ⟨⟨hnew, hpend⟩, hp⟩
  · intro g' a ha
    dsimp only at ha
    by_cases heq : g' = g
    · rw [heq] at ha ⊢
      rw [Function.update_self] at ha
      obtain ⟨new, godown, freed, hmade, -, -, hrep, -⟩ := hins.levels
      rcases hrep.mem a ha with hold | hsame
      · left
        apply hold
      · have hstart := (hmade.of_same hsame).start
        rw [hlba] at hstart
        right
        apply List.mem_of_head? hstart
    · rw [Function.update_of_ne heq] at ha
      left
      apply ha

end Insert

/-! ### Updates of the mapping -/

section Update

variable {pr : Predictor P} {geo : Geometry} {h : List Insert} {gone : List ℕ}
  {pending part : List (ℕ × ℕ)} {s s₀ : Ftl P} {b : Batch} {g : ℕ}

/-- A part of a batch comes from the batch. -/
theorem comes_of_infix (hpart : part <:+: b.map) :
  ∃ off, ∀ type n ptr, Comes (toInsert (part, type, n) ptr) b off
  := by
  obtain ⟨l₁, l₂, heq⟩ := hpart
  have hget : ∀ (j : ℕ) (q : ℕ × ℕ), part[j]? = some q → b.map[l₁.length + j]? = some q := by
    intro j q hq
    have hlt := (List.getElem?_eq_some_iff.mp hq).1
    rw [← heq, List.append_assoc, List.getElem?_append_right (Nat.le_add_right _ _),
      Nat.add_sub_cancel_left, List.getElem?_append_left hlt, hq]
  use l₁.length
  intro type n ptr
  constructor
  · intro j l hj
    obtain ⟨q, hq, rfl⟩ := Option.map_eq_some_iff.mp ((List.getElem?_map).symm.trans hj)
    rw [← b.map_fst, List.getElem?_map, hget j q hq]
    rfl
  · intro j p hj
    obtain ⟨q, hq, rfl⟩ := Option.map_eq_some_iff.mp ((List.getElem?_map).symm.trans hj)
    have hq' := hget j q hq
    have hlt := (List.getElem?_eq_some_iff.mp hq').1
    have hsnd : (b.map.map Prod.snd)[l₁.length + j]? = some q.2 := by
      rw [List.getElem?_map, hq']
      rfl
    rw [b.map_snd, List.getElem?_range' hlt, Nat.one_mul] at hsnd
    apply (Option.some.inj hsnd).symm

/-- A segment that begins at an address of the batch outside of a part does not lie inside the
part. -/
theorem mistaken_of_outside {type : SegmentType} {n : ℕ} {a : Segment P}
    (hsorted : b.lba.Pairwise (· < ·)) (hpart : part <:+: b.map) (hne : part ≠ [])
    (hle : a.start ≤ a.endLba) (hmem : a.start ∈ b.lba) (hout : a.start ∉ part.map Prod.fst) :
  mistaken (toInsert (part, type, n) 0) a = false
  := by
  obtain ⟨l₁, l₂, heq⟩ := hpart
  obtain ⟨first, hfirst⟩ : ∃ q, (part.map Prod.fst).head? = some q := by
    cases part with
    | nil => exact absurd rfl hne
    | cons q part => exact ⟨q.1, rfl⟩
  obtain ⟨last, hlast⟩ : ∃ q, (part.map Prod.fst).getLast? = some q := by
    refine ⟨_, List.getLast?_eq_some_getLast ?_⟩
    rw [Ne, List.map_eq_nil_iff]
    apply hne
  rw [← b.map_fst, ← heq, List.map_append, List.map_append] at hsorted hmem
  obtain ⟨hleft, -, hright⟩ := List.pairwise_append.mp hsorted
  unfold mistaken
  split
  · rfl
  · apply decide_eq_false
    rintro ⟨-, hstart, hend, -⟩
    have hge := hstart first hfirst
    have hle' := hend last hlast
    rcases List.mem_append.mp hmem with hmem | hmem
    · rcases List.mem_append.mp hmem with hmem | hmem
      · have := (List.pairwise_append.mp hleft).2.2 _ hmem first (List.mem_of_head? hfirst)
        omega
      · apply hout hmem
    · have := hright last (List.mem_append_right _ (List.mem_of_getLast? hlast)) _ hmem
      omega

/-- The segments of level 0 were there at the beginning, or have been made of addresses of the
batch that are not pending any more. -/
def Settled (s₀ : Ftl P) (b : Batch) (pending : List (ℕ × ℕ)) (s : Ftl P) : Prop :=
  ∀ g, ∀ a ∈ (s.mainGp g).level0, a ∈ (s₀.mainGp g).level0
    ∨ a.start ∈ b.lba ∧ a.start ∉ pending.map Prod.fst

/-- No pointer of level 0 is taken for a stride when the slices of a part are inserted. -/
def PartUnmistaken (gp : Group P) (part : List (ℕ × ℕ)) : Prop :=
  ∀ slice ∈ leaSlices (Ftl.intervals part) part.length, ∀ args ∈ (slice.insertArgs part).toOption,
    ∀ a ∈ gp.level0, mistaken (toInsert args 0) a = false

instance (gp : Group P) (part : List (ℕ × ℕ)) : Decidable (PartUnmistaken gp part) :=
  inferInstanceAs (Decidable (∀ slice ∈ leaSlices (Ftl.intervals part) part.length,
    ∀ args ∈ (slice.insertArgs part).toOption, ∀ a ∈ gp.level0,
      mistaken (toInsert args 0) a = false))

/-- The slices of a group are put into the mapping. -/
theorem Current.makeSlices (alloc : ℕ → ℕ) (hpart : part <:+: b.map)
    (hsorted : b.lba.Pairwise (· < ·)) (hgroup : ∀ q ∈ part, q.1 / mapInTrans = g)
    (hguard : PartUnmistaken (s₀.mainGp g) part)
    (hnodup : ((part ++ pending).map Prod.fst).Nodup) (hgone : ∀ q ∈ part, q.1 ∉ gone)
    {slices : List Slice} :
  ∀ {a : ℕ} {s : Ftl P} {h : List Insert}, Tiles a slices part.length →
    (∀ slice ∈ slices, slice ∈ leaSlices (Ftl.intervals part) part.length
      ∧ slice.Strided (Ftl.intervals part)) →
    Current pr geo h ((part.drop a).map Prod.fst ++ gone) (part.drop a ++ pending) s →
    Settled s₀ b (part.drop a ++ pending) s → Stored geo s b →
    ∃ s' h', slices.foldlM (fun s slice => s.wrapperGroupInsert pr alloc g part slice) s = .ok s'
      ∧ Current pr geo h' gone pending s' ∧ SameMedium s s' ∧ Settled s₀ b pending s'
  := by
  induction slices with
  | nil =>
      rintro a s h rfl _ hc hset _
      rw [List.drop_length] at hc hset
      use s, h, rfl, hc, SameMedium.refl s, hset
  | cons slice slices ih =>
      rintro a s h ⟨rfl, hpos, htiles⟩ hall hc hset hb
      obtain ⟨-, hend⟩ := Tiles.mem (l := slice :: slices) List.mem_cons_self ⟨rfl, hpos, htiles⟩
      obtain ⟨hslice, hstrided⟩ := hall slice List.mem_cons_self
      have hinc : part.Pairwise fun q r => q.1 < r.1 := by
        have hpair : (part.map Prod.fst).Pairwise (· < ·) := by
          have hsub := hpart.sublist.map Prod.fst
          rw [b.map_fst] at hsub
          apply hsorted.sublist hsub
        apply List.pairwise_map.mp hpair
      obtain ⟨type, n, hargs, hvalid⟩ := slice.insertArgs_valid hpos hend hstrided hinc hgroup
      obtain ⟨sl, hsl⟩ : ∃ sl, sl = (part.drop slice.start).take slice.length := ⟨_, rfl⟩
      have hsplit : part.drop slice.start = sl ++ part.drop (slice.start + slice.length) := by
        rw [hsl, ← List.drop_drop, List.take_append_drop]
      have hrun_in : sl <:+: b.map := by
        refine List.IsInfix.trans ?_ hpart
        rw [hsl]
        apply (List.take_prefix _ _).isInfix.trans (List.drop_suffix _ _).isInfix
      have hne : sl ≠ [] := by
        apply List.ne_nil_of_length_pos
        rw [hsl, List.length_take, List.length_drop]
        omega
      rw [← hsl] at hargs hvalid
      rw [hsplit] at hc hset
      rw [List.map_append, List.append_assoc] at hc
      rw [List.append_assoc] at hc hset
      obtain ⟨off, hcomes⟩ := comes_of_infix hrun_in
      have hmistaken : ∀ a ∈ (s.mainGp g).level0, mistaken (toInsert (sl, type, n) 0) a = false := by
        intro a ha
        rcases hset g a ha with hold | ⟨hmem, hout⟩
        · have hmem : (sl, type, n) ∈ (slice.insertArgs part).toOption := by
            rw [hargs]
            rfl
          apply hguard slice hslice _ hmem a hold
        · apply mistaken_of_outside hsorted hrun_in hne ((hc.inv.ordered g).le a ha) hmem
          intro h
          rw [List.map_append] at hout
          apply hout (List.mem_append_left _ h)
      have hdrop : ((sl ++ (part.drop (slice.start + slice.length) ++ pending)).map Prod.fst).Nodup := by
        rw [← List.append_assoc, ← hsplit]
        refine hnodup.sublist (List.Sublist.map _ ?_)
        apply (List.drop_sublist _ _).append_right _
      rw [List.map_append, List.nodup_append] at hdrop
      have hmempart : ∀ q ∈ sl, q ∈ part := by
        intro q hq
        rw [hsl] at hq
        apply List.mem_of_mem_drop (List.mem_of_mem_take hq)
      have hout : ∀ q ∈ sl, q.1 ∉ (part.drop (slice.start + slice.length)).map Prod.fst ++ gone
          ∧ q.1 ∉ (part.drop (slice.start + slice.length) ++ pending).map Prod.fst := by
        intro q hq
        have hrest : q.1 ∉ (part.drop (slice.start + slice.length) ++ pending).map Prod.fst
          := fun h => hdrop.2.2 _ (List.mem_map_of_mem hq) _ h rfl
        refine ⟨?_, hrest⟩
        intro h
        rcases List.mem_append.mp h with h | h
        · rw [List.map_append] at hrest
          apply hrest (List.mem_append_left _ h)
        · apply hgone q (hmempart q hq) h
      obtain ⟨s', h', hstep, hc', hsame, hlevels⟩ := hc.insertGroup alloc (fun ptr => hvalid ptr)
        hmistaken hb (fun ptr => hcomes type n ptr) hout
      have hset' : Settled s₀ b (part.drop (slice.start + slice.length) ++ pending) s' := by
        intro g' a ha
        rcases hlevels g' a ha with hold | hnew
        · rcases hset g' a hold with hold | ⟨hmem, hnot⟩
          · left
            apply hold
          · refine .inr ⟨hmem, fun h => hnot ?_⟩
            rw [List.map_append]
            apply List.mem_append_right _ h
        · obtain ⟨q, hq, heq⟩ := List.mem_map.mp hnew
          rw [← heq]
          refine .inr ⟨?_, (hout q hq).2⟩
          rw [← b.map_fst]
          apply List.mem_map_of_mem (hrun_in.subset hq)
      obtain ⟨s'', h'', hrest, hc'', hsame', hset''⟩ := ih htiles
        (fun t ht => hall t (List.mem_cons_of_mem _ ht)) hc' hset' (hsame.stored hb)
      refine ⟨s'', h'', ?_, hc'', hsame.trans hsame', hset''⟩
      refine bind_eq_ok.mpr ⟨s', ?_, hrest⟩
      change s.wrapperGroupInsert pr alloc g part slice = .ok s'
      rw [Ftl.wrapperGroupInsert_eq, hargs]
      apply hstep

/-- The addresses of one group that are next to each other in a batch. -/
structure GroupPart (s₀ : Ftl P) (b : Batch) (part : List (ℕ × ℕ)) : Prop where
  ne : part ≠ []
  infix' : part <:+: b.map
  group : ∀ q ∈ part, ∀ r ∈ part, q.1 / mapInTrans = r.1 / mapInTrans
  unmistaken : ∀ q ∈ part, PartUnmistaken (s₀.mainGp (q.1 / mapInTrans)) part

/-- The update of one group. -/
theorem Current.groupUpdate (hpr : pr.Bounded) (alloc : ℕ → ℕ) (isgc : Bool)
    (hpart : GroupPart s₀ b part) (hnodup : ((part ++ pending).map Prod.fst).Nodup)
    (hc : Current pr geo h (if isgc then (part ++ pending).map Prod.fst else []) (part ++ pending) s)
    (hset : Settled s₀ b (part ++ pending) s) (hb : Stored geo s b) :
  ∃ s' h', s.leaGroupUpdate pr alloc isgc part = .ok s'
    ∧ Current pr geo h' (if isgc then pending.map Prod.fst else []) pending s'
    ∧ SameMedium s s' ∧ Settled s₀ b pending s'
  := by
  obtain ⟨q, hq⟩ : ∃ q, part.head? = some q := by
    cases part with
    | nil => exact absurd rfl hpart.ne
    | cons q part => exact ⟨q, rfl⟩
  have hqmem := List.mem_of_head? hq
  have hdisjoint := hnodup
  rw [List.map_append, List.nodup_append] at hdisjoint
  obtain ⟨s₁, hs₁, hc₁, hsame₁, hgp₁⟩ : ∃ s₁,
      (if isgc then .ok s else s.leaMappingFindExactPiecePpa pr part) = Except.ok (ε := Abort) s₁
      ∧ Current pr geo h (part.map Prod.fst ++ if isgc then pending.map Prod.fst else [])
        (part ++ pending) s₁
      ∧ SameMedium s s₁ ∧ s₁.mainGp = s.mainGp := by
    cases isgc with
    | true =>
        rw [if_pos rfl, List.map_append] at hc
        exact ⟨s, rfl, hc, SameMedium.refl s, rfl⟩
    | false => apply hc.findExactPiecePpa hpr hdisjoint.1 (by simp)
  have hsorted := hb.sorted
  have hinc : part.Pairwise fun q r => q.1 < r.1 := by
    have hsub := hpart.infix'.sublist.map Prod.fst
    rw [b.map_fst] at hsub
    apply List.pairwise_map.mp (hsorted.sublist hsub)
  have hlba : ∀ r ∈ part, r.1 ≤ uint32Max := by
    intro r hr
    apply hb.lba
    rw [← b.map_fst]
    apply List.mem_map_of_mem (hpart.infix'.subset hr)
  obtain ⟨htiles, hstrided⟩ := leaSlices_tiles_map hpart.ne hinc hlba
  have hgone : ∀ r ∈ part, r.1 ∉ if isgc then pending.map Prod.fst else [] := by
    intro r hr
    cases isgc with
    | true => exact fun h => hdisjoint.2.2 _ (List.mem_map_of_mem hr) _ h rfl
    | false => apply List.not_mem_nil
  obtain ⟨s', h', hstep, hc', hsame', hset'⟩ := Current.makeSlices alloc hpart.infix' hsorted
    (fun r hr => hpart.group r hr q hqmem) (hpart.unmistaken q hqmem) hnodup hgone htiles
    (fun slice hslice => ⟨hslice, hstrided slice hslice⟩) hc₁
    (fun g a ha => hset g a (by rw [← hgp₁]; exact ha)) (hsame₁.stored hb)
  refine ⟨s', h', ?_, hc', hsame₁.trans hsame', hset'⟩
  refine bind_eq_ok.mpr ⟨q, orThrow_eq_ok.mpr hq, ?_⟩
  cases isgc with
  | true => apply bind_eq_ok.mpr ⟨s₁, hs₁, hstep⟩
  | false => apply bind_eq_ok.mpr ⟨s₁, hs₁, hstep⟩

/-- The updates of the groups. -/
theorem Current.groupUpdates (hpr : pr.Bounded) (alloc : ℕ → ℕ) (isgc : Bool)
    {parts : List (List (ℕ × ℕ))} :
  ∀ {s : Ftl P} {h : List Insert}, (∀ part ∈ parts, GroupPart s₀ b part) →
    (parts.flatten.map Prod.fst).Nodup →
    Current pr geo h (if isgc then parts.flatten.map Prod.fst else []) parts.flatten s →
    Settled s₀ b parts.flatten s → Stored geo s b →
    ∃ s' h', parts.foldlM (fun s part => s.leaGroupUpdate pr alloc isgc part) s = .ok s'
      ∧ Current pr geo h' [] [] s' ∧ SameMedium s s'
  := by
  induction parts with
  | nil =>
      intro s h _ _ hc _ _
      refine ⟨s, h, rfl, ?_, SameMedium.refl s⟩
      cases isgc with
      | true => apply hc
      | false => apply hc
  | cons part parts ih =>
      intro s h hparts hnodup hc hset hb
      rw [List.flatten_cons] at hnodup hc hset
      obtain ⟨s₁, h₁, hstep, hc₁, hsame₁, hset₁⟩ := Current.groupUpdate hpr alloc isgc
        (hparts part List.mem_cons_self) hnodup hc hset hb
      rw [List.map_append, List.nodup_append] at hnodup
      obtain ⟨s', h', hrest, hc', hsame'⟩ := ih (fun p hp => hparts p (List.mem_cons_of_mem _ hp))
        hnodup.2.1 hc₁ hset₁ (hsame₁.stored hb)
      exact ⟨s', h', bind_eq_ok.mpr ⟨s₁, hstep, hrest⟩, hc', hsame₁.trans hsame'⟩

/-- The parts of a list of addresses, one for each group. -/
def groupParts (map : List (ℕ × ℕ)) : List (List (ℕ × ℕ)) :=
  map.splitBy fun a b => a.1 / mapInTrans = b.1 / mapInTrans

/-- In which order the groups are updated does not matter. -/
theorem gups_perm (cached : List ℕ) (map : List (ℕ × ℕ)) :
  (Ftl.gups cached map).Perm (groupParts map)
  := List.filter_append_perm _ _

/-- No pointer of level 0 is taken for a stride when the addresses are put into the mapping. -/
def Ftl.MapUnmistaken (s : Ftl P) (map : List (ℕ × ℕ)) : Prop :=
  ∀ part ∈ groupParts map, ∀ q ∈ part, PartUnmistaken (s.mainGp (q.1 / mapInTrans)) part

instance (s : Ftl P) (map : List (ℕ × ℕ)) : Decidable (s.MapUnmistaken map) :=
  inferInstanceAs (Decidable (∀ part ∈ groupParts map, ∀ q ∈ part,
    PartUnmistaken (s.mainGp (q.1 / mapInTrans)) part))

theorem groupPart_of_mem (hguard : s₀.MapUnmistaken b.map) (hpart : part ∈ groupParts b.map) :
  GroupPart s₀ b part
  where
    ne := List.ne_nil_of_mem_splitBy hpart
    infix' := by
      have hrun_in := List.infix_of_mem_flatten hpart
      rwa [groupParts, List.flatten_splitBy] at hrun_in
    group := by
      have hchain : (part.map fun a => a.1 / mapInTrans).IsChain (· = ·) := by
        rw [List.isChain_map]
        apply (List.isChain_of_mem_splitBy hpart).imp fun a b h => of_decide_eq_true h
      have hpair := List.pairwise_map.mp hchain.pairwise
      intro q hq r hr
      have hsymm := hpair.imp fun h => h.symm
      apply List.Pairwise.forall_of_forall_of_flip (R := fun a b : ℕ × ℕ =>
        a.1 / mapInTrans = b.1 / mapInTrans) (fun _ _ => rfl) hpair hsymm hq hr
    unmistaken := hguard part hpart

/-- An update of the mapping with a batch that has been written. -/
theorem Current.mappingUpdate (hpr : pr.Bounded) (alloc : ℕ → ℕ) (cached : List ℕ) (isgc : Bool)
    (hne : b.map ≠ []) (hguard : s.MapUnmistaken b.map)
    (hc : Current pr geo h (if isgc then b.map.map Prod.fst else []) b.map s) (hb : Stored geo s b) :
  ∃ s' h', s.leaMappingUpdate pr alloc cached isgc b.map = .ok s' ∧ Current pr geo h' [] [] s'
    ∧ SameMedium s s'
  := by
  have hperm : (Ftl.gups cached b.map).flatten.Perm b.map := by
    have := (gups_perm cached b.map).flatten
    rwa [groupParts, List.flatten_splitBy] at this
  have hnodup : ((Ftl.gups cached b.map).flatten.map Prod.fst).Nodup := by
    rw [(hperm.map Prod.fst).nodup_iff, b.map_fst]
    apply hb.sorted.imp fun h => h.ne
  have hparts : ∀ part ∈ Ftl.gups cached b.map, GroupPart s b part := by
    intro part hpart
    apply groupPart_of_mem hguard ((gups_perm cached b.map).mem_iff.mp hpart)
  have hc' : Current pr geo h (if isgc then (Ftl.gups cached b.map).flatten.map Prod.fst else [])
      (Ftl.gups cached b.map).flatten s := by
    apply hc.congr _ fun q => hperm.mem_iff
    intro l
    cases isgc with
    | true => apply (hperm.map Prod.fst).mem_iff
    | false => apply Iff.rfl
  obtain ⟨s', h', hstep, hrest⟩ := Current.groupUpdates hpr alloc isgc hparts hnodup hc'
    (fun _ a ha => .inl ha) hb
  exact ⟨s', h', bind_eq_ok.mpr ⟨(), require_eq_ok.mpr hne, hstep⟩, hrest⟩

end Update

/-! ### Writes and collections -/

section Device

variable {pr : Predictor P} {geo : Geometry} {h : List Insert} {pending : List (ℕ × ℕ)}
  {s : Ftl P} {b : Batch} {target ppa : ℕ}

/-- The valid pieces between two operations. -/
theorem Current.bits_iff (hc : Current pr geo h [] [] s) (p : ℕ) :
  s.bits p = true ↔ ∃ l, Mapped h l p
  := by
  rw [hc.valid p]
  simp only [List.not_mem_nil, not_false_eq_true, true_and, exists_false, or_false]

/-- The latest copies between two operations. -/
theorem Current.latest_iff (hc : Current pr geo h [] [] s) {l p : ℕ} :
  Latest s.log l p ↔ Mapped h l p
  := by
  rw [hc.latest l p]
  simp only [List.not_mem_nil, List.map_nil, false_or, not_false_eq_true, true_and]

/-- A batch that is written is pending. -/
theorem Current.write (hc : Current pr geo h [] [] s) (hsorted : b.lba.Pairwise (· < ·))
    (hlba : ∀ l ∈ b.lba, l ≤ uint32Max) (hlies : b.Lies geo)
    (hunused : ∀ q, q * l2pgap < b.lba.length → s.used (b.ppa + q) = false) :
  Current pr geo h [] b.map (s.writeBatch b)
    ∧ Stored geo (s.writeBatch b) b
  := by
  have hb : Stored geo (s.writeBatch b) b
    := (stored_written hsorted hlba hlies hunused hc.blank).congr fun q _ => ⟨rfl, rfl⟩
  have hother := fun {page : ℕ} (hused : s.used page = true) => Ftl.written_other hused hunused
  refine ⟨?_, hb⟩
  constructor
  · apply hc.inv
  · intro l k i hl hk hi
    obtain ⟨b', off, hb', hcomes⟩ := hc.stands l k i hl hk hi
    exact ⟨b', off, hb'.congr fun q hq => hother (hb'.used q hq), hcomes⟩
  · intro p
    simp only [List.not_mem_nil, not_false_eq_true, true_and]
    rw [← hc.bits_iff p]
    have hnew : (∃ l, (l, p) ∈ b.map) ↔ b.ppa * l2pgap ≤ p ∧ p < b.ppa * l2pgap + b.lba.length := by
      simp only [Batch.mem_map]
      constructor
      · rintro ⟨l, m, hm, rfl⟩
        have := (List.getElem?_eq_some_iff.mp hm).1
        omega
      · rintro ⟨hge, hlt⟩
        exact ⟨_, p - b.ppa * l2pgap, List.getElem?_eq_getElem (by omega), by omega⟩
    rw [hnew]
    unfold Ftl.writeBatch Ftl.written
    dsimp only
    split
    · rename_i hin
      apply iff_of_true rfl (.inr hin)
    · rename_i hout
      use .inl, fun h => h.resolve_right hout
  · intro l p hp hl hmapped
    obtain ⟨b', m', hb', hm', heq⟩ := hc.place hl hmapped
    obtain ⟨m, hm, rfl⟩ := Batch.mem_map.mp hp
    have hused := hb'.used_piece hm'
    have hlt := (List.getElem?_eq_some_iff.mp hm).1
    rw [← heq, Nat.mul_comm, Nat.mul_add_div (by decide),
      hunused _ (lt_of_le_of_lt (Nat.div_mul_le_self m l2pgap) hlt)] at hused
    cases hused
  · rintro ⟨l, p⟩ hp
    obtain ⟨m, hm, rfl⟩ := Batch.mem_map.mp hp
    apply hb.intact.piece hm
  · intro page i hfalse
    unfold Ftl.writeBatch Ftl.written at hfalse ⊢
    dsimp only at hfalse ⊢
    split at hfalse
    · cases hfalse
    · rename_i hout
      split
      · rename_i hin
        rw [List.getElem?_eq_none (by unfold l2pgap at *; omega), Option.getD_none]
        apply hc.blank page i hfalse
      · apply hc.blank page i hfalse
  · intro l p
    have hlog : (s.writeBatch b).log = s.log ++ [b] := rfl
    rw [hlog, latest_batch, b.map_fst, hc.latest_iff]
    split
    · rename_i hin
      use .inl, fun h => h.resolve_right fun h => h.1 hin
    · rename_i hout
      constructor
      · exact fun h => .inr ⟨hout, h⟩
      · rintro (hp | ⟨-, hp⟩)
        · obtain ⟨m, hm, -⟩ := Batch.mem_map.mp hp
          exact absurd (List.mem_of_getElem? hm) hout
        · apply hp

/-- A segment is erased when the copies that are valid there are pending. -/
theorem Current.trim (hpr : pr.Bounded) (hc : Current pr geo h [] pending s)
    (hpiece : ∀ q ∈ pending, q.2 / l2pgap / geo.pps ≠ target)
    (hpending : ∀ l, l ∈ pending.map Prod.fst
      ↔ ∃ p, Mapped h l p ∧ p / l2pgap / geo.pps = target) :
  Current pr geo h (pending.map Prod.fst) pending (s.trim geo target)
  where
    inv := hc.inv
    stands l k i hl hk hi := by
      obtain ⟨b, off, hb, hcomes⟩ := hc.stands l k i List.not_mem_nil hk hi
      obtain ⟨p, hp⟩ := hc.inv.exists_mapped hk
      have hseg : b.ppa / geo.pps ≠ target := by
        obtain ⟨k', i', j, hk', hi', hj, hpj⟩ := id hp
        obtain rfl := hk.unique hk'
        rw [hi] at hi'
        cases hi'
        intro heq
        apply hl
        rw [hpending]
        use p, hp
        rw [hcomes.piece j p hpj, hb.lies.segment_piece (hcomes.lba j l hj)]
        apply heq
      refine ⟨b, off, hb.congr ?_, hcomes⟩
      intro q hq
      have hout : (b.ppa + q) / geo.pps ≠ target := by
        rw [hb.lies.segment q hq]
        apply hseg
      unfold Ftl.trim
      dsimp only
      constructor
      · funext i
        rw [if_neg hout]
      · rw [if_neg hout]
    valid p := by
      unfold Ftl.trim
      dsimp only
      split
      · rename_i hin
        refine iff_of_false Bool.false_ne_true ?_
        rintro (⟨l, hl, hp⟩ | ⟨l, hp⟩)
        · apply hl ((hpending l).mpr ⟨p, hp, hin⟩)
        · apply hpiece _ hp hin
      · rename_i hout
        rw [hc.valid p]
        constructor
        · rintro (⟨l, hl, hp⟩ | hp)
          · refine .inl ⟨l, ?_, hp⟩
            intro hmem
            obtain ⟨p', hp', hin⟩ := (hpending l).mp hmem
            rw [hc.mapped_unique hpr hl hp hp'] at hout
            apply hout hin
          · right
            apply hp
        · rintro (⟨l, -, hp⟩ | hp)
          · left
            exact ⟨l, List.not_mem_nil, hp⟩
          · right
            apply hp
    apart l p hp _ := hc.apart l p hp List.not_mem_nil
    pendingOob q hq := by
      unfold Ftl.trim
      dsimp only
      rw [if_neg (hpiece q hq)]
      apply hc.pendingOob q hq
    blank page i hused := by
      unfold Ftl.trim at hused ⊢
      dsimp only at hused ⊢
      split
      · rfl
      · rename_i hout
        rw [if_neg hout] at hused
        apply hc.blank page i hused
    latest := hc.latest

/-- The pieces of a physical segment. -/
theorem mem_segment {p : ℕ} :
  p ∈ List.range' (target * geo.pps * l2pgap) (geo.pps * l2pgap) ↔ p / l2pgap / geo.pps = target
  := by
  have hpos := geo.pps_pos
  rw [List.mem_range'_1, Nat.div_eq_iff hpos, Nat.le_div_iff_mul_le (by decide),
    Nat.div_le_iff_le_mul_add_pred (by decide)]
  have hsub : target * geo.pps + geo.pps - 1 + 1 = target * geo.pps + geo.pps := by omega
  have hmul : (target * geo.pps + geo.pps - 1) * l2pgap + l2pgap
      = target * geo.pps * l2pgap + geo.pps * l2pgap := by
    rw [← Nat.succ_mul, Nat.succ_eq_add_one, hsub, Nat.add_mul]
  rw [Nat.mul_comm l2pgap]
  unfold l2pgap at *
  omega

/-- The addresses that a garbage collection moves. -/
theorem Current.mem_validLbas (hc : Current pr geo h [] [] s) {l : ℕ} :
  l ∈ s.validLbas geo target ↔ ∃ p, Mapped h l p ∧ p / l2pgap / geo.pps = target
  := by
  unfold Ftl.validLbas
  rw [List.mem_filterMap]
  constructor
  · rintro ⟨p, hp, hl⟩
    split at hl
    · rename_i hbit
      cases hl
      obtain ⟨l, hmapped⟩ := (hc.bits_iff p).mp hbit
      refine ⟨p, ?_, mem_segment.mp hp⟩
      rw [hc.oob List.not_mem_nil hmapped]
      apply hmapped
    · cases hl
  · rintro ⟨p, hmapped, hin⟩
    use p, mem_segment.mpr hin
    rw [if_pos ((hc.bits_iff p).mpr ⟨l, hmapped⟩), hc.oob List.not_mem_nil hmapped]

/-- A garbage collection moves no two copies of one address. -/
theorem Current.nodup_validLbas (hpr : pr.Bounded) (hc : Current pr geo h [] [] s) (target : ℕ) :
  (s.validLbas geo target).Nodup
  := by
  have hmapped : ∀ {p l : ℕ}, (if s.bits p then some (s.oob (p / l2pgap) (p % l2pgap)) else none)
      = some l → Mapped h l p := by
    intro p l hl
    split at hl
    · rename_i hbit
      cases hl
      obtain ⟨l, hmapped⟩ := (hc.bits_iff p).mp hbit
      rw [hc.oob List.not_mem_nil hmapped]
      apply hmapped
    · cases hl
  apply List.Nodup.filterMap _ List.nodup_range'
  intro p p' l hl hl'
  apply hc.mapped_unique hpr List.not_mem_nil (hmapped hl) (hmapped hl')

end Device

/-! ### Runs -/

section Runs

variable (pr : Predictor P) (geo : Geometry)

namespace Ftl

variable (s : Ftl P)

/-- The pages of a batch are free. -/
structure Free (b : Batch) : Prop where
  lies : b.Lies geo
  unused : ∀ q, q * l2pgap < b.lba.length → s.used (b.ppa + q) = false

instance (b : Batch) : Decidable (s.Free geo b) :=
  decidable_of_iff (b.Lies geo ∧ ∀ q < b.lba.length, q * l2pgap < b.lba.length →
      s.used (b.ppa + q) = false)
    ⟨fun h => ⟨h.1, fun q hq => h.2 q (lt_of_le_of_lt (Nat.le_mul_of_pos_right q (by decide)) hq) hq⟩,
      fun h => ⟨h.lies, fun q _ => h.unused q⟩⟩

/-- What the callers ensure: the buffer is sorted and fills whole pages, and what is written goes
to free pages, in a garbage collection not to the segment that is collected. -/
def Ready : Op → Prop
  | .flush _ lba ppa => lba ≠ [] ∧ lba.length % l2pgap = 0 ∧ lba.Pairwise (· < ·)
      ∧ (∀ l ∈ lba, l ≤ uint32Max) ∧ s.Free geo ⟨lba, ppa⟩
  | .gc _ target ppa => ppa / geo.pps ≠ target ∧ s.Free geo (s.gcBatch geo target ppa)

instance (op : Op) : Decidable (s.Ready geo op) :=
  match op with
  | .flush _ lba ppa => inferInstanceAs (Decidable (lba ≠ [] ∧ lba.length % l2pgap = 0
      ∧ lba.Pairwise (· < ·) ∧ (∀ l ∈ lba, l ≤ uint32Max) ∧ s.Free geo ⟨lba, ppa⟩))
  | .gc _ target ppa => inferInstanceAs (Decidable (ppa / geo.pps ≠ target
      ∧ s.Free geo (s.gcBatch geo target ppa)))

/-- No pointer of level 0 is taken for a stride in an operation. -/
def OpUnmistaken (op : Op) : Prop := s.MapUnmistaken (s.batch geo op).map

instance (op : Op) : Decidable (s.OpUnmistaken geo op) :=
  inferInstanceAs (Decidable (s.MapUnmistaken (s.batch geo op).map))

/-- Before the first operation. -/
def init (P : Type) : Ftl P where
  globals := (LeaFtl.init P 0).1
  mainGp := noGroups P
  bits _ := false
  oob _ _ := 0
  used _ := false
  log := []

/-- Lookups find the latest copies, these are exactly the valid pieces, and no physical segment has
two valid copies of an address. -/
structure Exact : Prop where
  found : ∀ lba p, Latest s.log lba p → s.exactPiecePpa pr lba = .ok p
  absent : ∀ lba, (∀ b ∈ s.log, lba ∉ b.lba) → s.exactPiecePpa pr lba = .ok uint32Max
  valid : ∀ p, s.bits p = true ↔ ∃ lba, Latest s.log lba p
  oob : ∀ lba p, Latest s.log lba p → s.oob (p / l2pgap) (p % l2pgap) = lba
  nodup : ∀ target, (s.validLbas geo target).Nodup

end Ftl

variable {pr geo} {h : List Insert} {s : Ftl P} {b : Batch}

theorem current_init :
  Current pr geo [] [] [] (Ftl.init P)
  where
    inv := inv_init pr 0
    stands := by simp
    valid := by simp [Ftl.init, Mapped]
    apart := by simp
    pendingOob := by simp
    blank _ _ _ := rfl
    latest := by simp [Ftl.init, Latest, Mapped]

/-- A flush. -/
theorem Current.flush (alloc : ℕ → ℕ) (hpr : pr.Bounded) (hc : Current pr geo h [] [] s)
    {cached lba : List ℕ}
    {ppa : ℕ} (hready : s.Ready geo (.flush cached lba ppa))
    (hguard : s.OpUnmistaken geo (.flush cached lba ppa)) :
  ∃ s' h', s.flush pr alloc cached lba ppa = .ok s' ∧ Current pr geo h' [] [] s'
  := by
  obtain ⟨hne, hwhole, hsorted, hlba, hfree⟩ := hready
  have hwrite : s.write false ⟨lba, ppa⟩ = .ok (s.writeBatch ⟨lba, ppa⟩, Batch.map ⟨lba, ppa⟩) :=
    Ftl.write_eq (fun _ => hwhole) hfree.unused (hsorted.imp fun h => h.le)
  obtain ⟨hc', hb⟩ := hc.write hsorted hlba hfree.lies hfree.unused
  have hne' : (Batch.map ⟨lba, ppa⟩) ≠ [] := by
    intro hnil
    have hfst := Batch.map_fst ⟨lba, ppa⟩
    rw [hnil] at hfst
    apply hne hfst.symm
  have hguard' : (s.writeBatch ⟨lba, ppa⟩).MapUnmistaken (Batch.map ⟨lba, ppa⟩) := hguard
  obtain ⟨s', h', hupdate, hc'', -⟩ := Current.mappingUpdate hpr alloc cached false hne' hguard' hc' hb
  refine ⟨s', h', bind_eq_ok.mpr ⟨(), require_eq_ok.mpr hwhole, ?_⟩, hc''⟩
  apply bind_eq_ok.mpr ⟨_, hwrite, hupdate⟩

/-- A garbage collection. -/
theorem Current.gc (alloc : ℕ → ℕ) (hpr : pr.Bounded) (hc : Current pr geo h [] [] s)
    {cached : List ℕ}
    {target ppa : ℕ} (hready : s.Ready geo (.gc cached target ppa))
    (hguard : s.OpUnmistaken geo (.gc cached target ppa)) :
  ∃ s' h', s.gc pr alloc geo cached target ppa = .ok s' ∧ Current pr geo h' [] [] s'
  := by
  obtain ⟨hout, hfree⟩ := hready
  obtain ⟨b, hbatch⟩ : ∃ b, b = s.gcBatch geo target ppa := ⟨_, rfl⟩
  have hppa : b.ppa = ppa := by rw [hbatch]; rfl
  have hperm : b.lba.Perm (s.validLbas geo target) := by
    rw [hbatch]
    apply List.perm_insertionSort _ _
  have hle : b.lba.Pairwise (· ≤ ·) := by
    rw [hbatch]
    apply List.pairwise_insertionSort _ _
  have hsorted : b.lba.Pairwise (· < ·) := by
    have hnodup : b.lba.Nodup := hperm.nodup_iff.mpr (hc.nodup_validLbas hpr target)
    apply (hle.and hnodup).imp fun h => lt_of_le_of_ne h.1 h.2
  have hmem : ∀ l, l ∈ b.lba ↔ ∃ p, Mapped h l p ∧ p / l2pgap / geo.pps = target
    := fun l => hperm.mem_iff.trans hc.mem_validLbas
  have hlba : ∀ l ∈ b.lba, l ≤ uint32Max := by
    intro l hl
    obtain ⟨p, hp, -⟩ := (hmem l).mp hl
    obtain ⟨b', m, hb', hm, -⟩ := hc.place List.not_mem_nil hp
    apply hb'.lba l (List.mem_of_getElem? hm)
  rw [← hbatch] at hfree
  have hwrite : s.write true b = .ok (s.writeBatch b, b.map) :=
    Ftl.write_eq (fun h => absurd h Bool.noConfusion) hfree.unused hle
  obtain ⟨hc', hb⟩ := hc.write hsorted hlba hfree.lies hfree.unused
  have hpiece : ∀ q ∈ b.map, q.2 / l2pgap / geo.pps ≠ target := by
    rintro ⟨l, p⟩ hq
    obtain ⟨m, hm, rfl⟩ := Batch.mem_map.mp hq
    dsimp only
    rw [hfree.lies.segment_piece hm, hppa]
    apply hout
  have hc'' := hc'.trim hpr hpiece (by rw [b.map_fst]; exact hmem)
  have hb' : Stored geo ((s.writeBatch b).trim geo target) b := by
    apply hb.congr
    intro q hq
    have hseg : ¬ (b.ppa + q) / geo.pps = target := by
      rw [hfree.lies.segment q hq, hppa]
      apply hout
    unfold Ftl.trim
    dsimp only
    constructor
    · funext i
      rw [if_neg hseg]
    · rw [if_neg hseg]
  rw [hbatch] at hwrite
  by_cases hnil : b.map = []
  · rw [hnil] at hc''
    refine ⟨_, h, bind_eq_ok.mpr ⟨_, hwrite, ?_⟩, hc''⟩
    rw [← hbatch]
    apply if_pos hnil
  · have hguard' : ((s.writeBatch b).trim geo target).MapUnmistaken b.map := by
      rw [hbatch]
      apply hguard
    obtain ⟨s', h', hupdate, hrest, -⟩ := Current.mappingUpdate hpr alloc cached true hnil hguard'
      hc'' hb'
    refine ⟨s', h', bind_eq_ok.mpr ⟨_, hwrite, ?_⟩, hrest⟩
    rw [← hbatch]
    apply (if_neg hnil).trans hupdate

/-- Between two operations lookups are exact. -/
theorem Current.exact (hpr : pr.Bounded) (hc : Current pr geo h [] [] s) :
  s.Exact pr geo
  where
    found _ _ hp := hc.exactPiecePpa hpr List.not_mem_nil (hc.latest_iff.mp hp)
    absent lba hnone := by
      apply hc.exactPiecePpa_none
      intro p hp
      obtain ⟨k, b, m, hk, hm, -⟩ := hc.latest_iff.mpr hp
      apply hnone b (List.mem_of_getElem? hk) (List.mem_of_getElem? hm)
    valid p := by
      rw [hc.bits_iff p]
      apply exists_congr fun l => hc.latest_iff.symm
    oob _ _ hp := hc.oob List.not_mem_nil (hc.latest_iff.mp hp)
    nodup := hc.nodup_validLbas hpr

/-- In every run of flushes and garbage collections in which no pointer is taken for a stride,
lookups find the latest copies, and exactly these are valid. -/
theorem lookup_latest (hpr : pr.Bounded) (alloc : ℕ → ℕ) (geo : Geometry) (ops : List Op)
    (hready : Guarded (Ftl.step pr alloc geo) (Ftl.Ready geo) (Ftl.init P) ops)
    (hguard : Guarded (Ftl.step pr alloc geo) (Ftl.OpUnmistaken geo) (Ftl.init P) ops) :
  ∃ s, run (Ftl.step pr alloc geo) (Ftl.init P) ops = .ok s ∧ s.Exact pr geo
  := by
  have hkeep : ∀ (done : List Op) (s : Ftl P) (op : Op), (∃ h, Current pr geo h [] [] s) →
      s.Ready geo op ∧ s.OpUnmistaken geo op →
      ∃ s', s.step pr alloc geo op = .ok s' ∧ ∃ h, Current pr geo h [] [] s' := by
    rintro _ s op ⟨h, hc⟩ ⟨hready, hguard⟩
    cases op with
    | flush cached lba ppa =>
        obtain ⟨s', h', hstep, hc'⟩ := hc.flush alloc hpr hready hguard
        exact ⟨s', hstep, h', hc'⟩
    | gc cached target ppa =>
        obtain ⟨s', h', hstep, hc'⟩ := hc.gc alloc hpr hready hguard
        exact ⟨s', hstep, h', hc'⟩
  obtain ⟨s, hrun, h, hc⟩ := run_progress (h := []) (fun _ s => ∃ h, Current pr geo h [] [] s) hkeep
    ⟨[], current_init⟩ (hready.and hguard)
  exact ⟨s, hrun, hc.exact hpr⟩

end Runs

/-! ### Two runs -/

/-- A `PLR` that gives the page of the first point that is not before an address. -/
def nextPoint : Predictor (List (ℕ × ℕ)) where
  make := id
  get l lba := ((l.find? fun q => lba ≤ q.1).getD (l.getLastD (0, 0))).2
  lineCnt _ := 1

theorem nextPoint_mem {l : List (ℕ × ℕ)} (hne : l ≠ []) (x : ℕ) :
  ∃ q ∈ l, nextPoint.get (nextPoint.make l) x = q.2
  := by
  unfold nextPoint
  dsimp only [id]
  cases hfind : l.find? fun q => decide (x ≤ q.1) with
  | some q => exact ⟨q, List.mem_of_find?_eq_some hfind, rfl⟩
  | none =>
      use l.getLast hne, List.getLast_mem hne
      rw [Option.getD_none, List.getLastD_eq_getLast?, List.getLast?_eq_some_getLast hne]
      rfl

theorem nextPoint_bounded :
  nextPoint.Bounded
  where
    near l hl q hq := by
      have hfind : (l.find? fun r => decide (q.1 ≤ r.1)) = some q := by
        induction l with
        | nil => cases hq
        | cons a l ih =>
            obtain ⟨hfirst, hrest⟩ := List.pairwise_cons.mp hl
            obtain rfl | hq := List.mem_cons.mp hq
            · rw [List.find?_cons_of_pos (by simp)]
            · have hlt := (hfirst q hq).1
              rw [List.find?_cons_of_neg (by simpa using hlt)]
              apply ih hrest hq
      unfold nextPoint
      dsimp only [id]
      rw [hfind]
      use Nat.le_succ _, Nat.le_succ _
    ge l x _ hne := by
      obtain ⟨q, hq, heq⟩ := nextPoint_mem hne x
      use q, hq, heq.ge
    le l x _ hne := by
      obtain ⟨q, hq, heq⟩ := nextPoint_mem hne x
      use q, hq, heq.le

/-- Physical segments of two pages. -/
def twoPages : Geometry where
  ppb := 1
  bps := 2
  nos := 4
  ppb_pos := by decide
  bps_pos := by decide

/-- Two flushes to the first physical segment, which is then collected. -/
def collected : List Op :=
  [.flush [] [0, 1, 3, 5] 0, .flush [0] [1, 3, 6, 8] 1, .gc [] 0 2]

/-- The `PLR` objects are 32 bytes apart. -/
def plrAt (base seq : ℕ) : ℕ := base + seq * 32

theorem lookup_latest_collected :
  ∃ s, run (Ftl.step nextPoint (plrAt 0x5500000020) twoPages) (Ftl.init _) collected = .ok s
    ∧ s.Exact nextPoint twoPages ∧ s.exactPiecePpa nextPoint 5 = .ok 11
  := by
  obtain ⟨s, hrun, hexact⟩ := lookup_latest nextPoint_bounded (plrAt 0x5500000020) twoPages collected
    (by decide +kernel) (by decide +kernel)
  have hlookup : (run (Ftl.step nextPoint (plrAt 0x5500000020) twoPages) (Ftl.init _) collected).bind
      (fun s => s.exactPiecePpa nextPoint 5) = .ok 11 := by decide +kernel
  rw [hrun] at hlookup
  use s, hrun, hexact, hlookup

/-- The lower half of the pointer of the first segment is the stride of the second one. -/
def clash : List Op := [.flush [] [0, 1, 3, 5] 0, .flush [0] [0, 16, 32, 48] 1]

/-- The segment of the address 1 is freed, and the lookup of its latest copy uses it. -/
theorem not_lookup_latest :
  nextPoint.Bounded
    ∧ Guarded (Ftl.step nextPoint (plrAt 0x5500000010) twoPages) (Ftl.Ready twoPages) (Ftl.init _) clash
    ∧ ∃ s, run (Ftl.step nextPoint (plrAt 0x5500000010) twoPages) (Ftl.init _) clash = .ok s
      ∧ Latest s.log 1 1 ∧ s.exactPiecePpa nextPoint 1 = .error .outOfBounds
  := by
  have hlookup : (run (Ftl.step nextPoint (plrAt 0x5500000010) twoPages) (Ftl.init _) clash).map
      (fun s => (s.log, s.exactPiecePpa nextPoint 1))
      = .ok ([⟨[0, 1, 3, 5], 0⟩, ⟨[0, 16, 32, 48], 1⟩], .error .outOfBounds) := by decide +kernel
  obtain ⟨s, hrun, hs⟩ := map_eq_ok hlookup
  obtain ⟨hlog, hfound⟩ := Prod.ext_iff.mp hs
  refine ⟨nextPoint_bounded, by decide +kernel, s, hrun, ?_, hfound⟩
  dsimp only at hlog
  rw [hlog]
  refine ⟨0, ⟨[0, 1, 3, 5], 0⟩, 1, rfl, rfl, rfl, ?_⟩
  intro j b hj hb
  have hlt := (List.getElem?_eq_some_iff.mp hb).1
  obtain rfl : j = 1 := by
    have : j < 2 := hlt
    omega
  obtain rfl : (⟨[0, 16, 32, 48], 1⟩ : Batch) = b := Option.some.inj hb
  decide

end LeaFtl

end AppL
