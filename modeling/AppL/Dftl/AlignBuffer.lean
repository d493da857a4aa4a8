import Mathlib.Data.List.Basic
import Mathlib.Data.List.Nodup
import Mathlib.Logic.Function.Basic
import AppL.Settings

/-!
# The align buffer

Writes are collected in a buffer with a place for every logical page of a physical page.  A
write overwrites the entry of its key or takes the next place, and when all places are taken
the page is written.  A removal has to close the gap that it leaves.
-/

namespace AppL

namespace Dftl

variable {D : Type*}

/-- A logical page with its data and its `prefetching_info`. -/
structure Entry (D : Type*) where
  key : ℕ
  data : D
  prefetchingInfo : ℕ
  deriving DecidableEq, Repr

/-- An `align_buffer`; `value i` is the data of the `i`-th place. -/
structure AlignBuffer (D : Type*) where
  idx : ℕ
  prefetchingInfo : ℕ → ℕ
  key : ℕ → ℕ
  value : ℕ → D

namespace AlignBuffer

/-- The buffer of `page_create`.  What its data are is not known. -/
def create (value : ℕ → D) : AlignBuffer D := ⟨0, fun _ => 0, fun _ => 0, value⟩

variable (b : AlignBuffer D)

/-- The content of a place. -/
def place (i : ℕ) : Entry D := ⟨b.key i, b.value i, b.prefetchingInfo i⟩

/-- The places that are taken. -/
def entries : List (Entry D) := (List.range b.idx).map b.place

/-- The loops that look for a key. -/
def find (key : ℕ) : Option ℕ := (List.range b.idx).find? fun i => b.key i = key

/-- `page_read` of a new request: the data in the buffer, or none when the request goes on to
the mapping. -/
def pageRead (key : ℕ) : Option D := (b.find key).map b.value

/-- `align_buffering`, with the page that is written when all places are taken. -/
def alignBuffering (req : Entry D) : Option (List (Entry D)) × AlignBuffer D :=
  let overlap := (b.find req.key).isSome
  let targetIdx := (b.find req.key).getD b.idx
  let b : AlignBuffer D :=
    { idx := if overlap then b.idx else b.idx + 1
      prefetchingInfo := Function.update b.prefetchingInfo targetIdx req.prefetchingInfo
      key := Function.update b.key targetIdx req.key
      value := Function.update b.value targetIdx req.data }
  if b.idx = l2pgap then (some b.entries, { b with idx := 0 }) else (none, b)

/-- The step of the loop of `page_remove` at `j`. -/
def shift (n : ℕ) (b : AlignBuffer D) (j : ℕ) : AlignBuffer D :=
  if j + 1 ≠ n then
    { b with
      key := Function.update b.key j (b.key (j + 1))
      prefetchingInfo := Function.update b.prefetchingInfo j (b.prefetchingInfo (j + 1))
      value := Function.update b.value j (b.value (j + 1)) }
  else
    b

/-- `page_remove` of a new request: whether the key was in the buffer, otherwise the request
goes on to the mapping. -/
def pageRemove (key : ℕ) : Bool × AlignBuffer D :=
  match b.find key with
  | some i =>
      let b' := (List.range' (i + 1) (b.idx - (i + 1))).foldl (shift b.idx) b
      (true, { b' with idx := b.idx - 1 })
  | none => (false, b)

/-- The page that is written first when requests are buffered. -/
def nextFlush (b : AlignBuffer D) : List (Entry D) → Option (List (Entry D))
  | [] => none
  | req :: reqs =>
      match b.alignBuffering req with
      | (some page, _) => some page
      | (none, b') => b'.nextFlush reqs

/-- The requests that change the buffer. -/
inductive Op (D : Type*) where
  | write (req : Entry D)
  | remove (key : ℕ)

/-- A request. -/
def step (b : AlignBuffer D) : Op D → AlignBuffer D
  | .write req => (b.alignBuffering req).2
  | .remove key => (b.pageRemove key).2

/-- The buffer after some requests. -/
def Reachable (b : AlignBuffer D) : Prop :=
  ∃ (value : ℕ → D) (ops : List (Op D)), ops.foldl step (create value) = b

/-- A removal leaves the other entries in their order: the key is not found in the buffer, the
others are, and the next page that is written has all of them. -/
structure RemovesOnly (b : AlignBuffer D) (key : ℕ) : Prop where
  entries : (b.pageRemove key).2.entries = b.entries.filter fun e => e.key ≠ key
  miss : (b.pageRemove key).2.pageRead key = none
  hit : ∀ e ∈ b.entries, e.key ≠ key → (b.pageRemove key).2.pageRead e.key = some e.data
  flush : ∀ reqs page, (b.pageRemove key).2.nextFlush reqs = some page →
    ∀ e ∈ b.entries, e.key ≠ key → ∃ e' ∈ page, e'.key = e.key
      ∧ ((∀ req ∈ reqs, req.key ≠ e.key) → e' = e)

variable {b} {i key : ℕ}

/-! ### Places and entries -/

theorem mem_entries {e : Entry D} :
  e ∈ b.entries ↔ ∃ i < b.idx, b.place i = e
  := by
  unfold entries
  rw [List.mem_map]
  simp only [List.mem_range]

theorem find_eq_some (h : b.find key = some i) :
  i < b.idx ∧ b.key i = key
  := by
  have hkey := List.find?_some h
  use List.mem_range.mp (List.mem_of_find?_eq_some h), of_decide_eq_true hkey

theorem find_eq_none :
  b.find key = none ↔ ∀ e ∈ b.entries, e.key ≠ key
  := by
  unfold find
  rw [List.find?_eq_none]
  simp only [List.mem_range, decide_eq_true_eq, mem_entries]
  constructor
  · rintro h e ⟨i, hi, rfl⟩
    apply h i hi
  · intro h i hi
    apply h _ ⟨i, hi, rfl⟩

/-- The keys of the buffer are different, and a place is free. -/
structure Distinct (b : AlignBuffer D) : Prop where
  lt : b.idx < l2pgap
  inj : ∀ i j, i < b.idx → j < b.idx → b.key i = b.key j → i = j

theorem Distinct.find (h : Distinct b) (hi : i < b.idx) :
  b.find (b.key i) = some i
  := by
  cases hf : b.find (b.key i) with
  | none => exact absurd rfl (find_eq_none.mp hf _ (mem_entries.mpr ⟨i, hi, rfl⟩))
  | some j =>
      obtain ⟨hj, hkey⟩ := find_eq_some hf
      rw [h.inj j i hj hi hkey]

theorem Distinct.pageRead (h : Distinct b) {e : Entry D} (he : e ∈ b.entries) :
  b.pageRead e.key = some e.data
  := by
  obtain ⟨i, hi, rfl⟩ := mem_entries.mp he
  unfold AlignBuffer.pageRead
  rw [show b.find (b.place i).key = some i from h.find hi]
  rfl

/-! ### Writes -/

/-- The buffer with a request, before the page is written. -/
theorem alignBuffering_eq (b : AlignBuffer D) (req : Entry D) :
  ∃ b' : AlignBuffer D, b.alignBuffering req
      = (if b'.idx = l2pgap then (some b'.entries, { b' with idx := 0 }) else (none, b'))
    ∧ ∃ t, (t < b.idx ∧ b.key t = req.key ∧ b'.idx = b.idx
        ∨ t = b.idx ∧ (∀ e ∈ b.entries, e.key ≠ req.key) ∧ b'.idx = b.idx + 1)
      ∧ b'.place t = req ∧ ∀ j, j ≠ t → b'.place j = b.place j
  := by
  refine ⟨_, rfl, (b.find req.key).getD b.idx, ?_, ?_, ?_⟩
  · cases hf : b.find req.key with
    | none => exact .inr ⟨rfl, find_eq_none.mp hf, rfl⟩
    | some t =>
        obtain ⟨ht, hkey⟩ := find_eq_some hf
        left
        exact ⟨ht, hkey, rfl⟩
  · simp [place]
  · intro j hj
    simp [place, hj]

/-- A written entry stays until it is overwritten or its page is written. -/
theorem nextFlush_mem (reqs : List (Entry D)) :
  ∀ {b : AlignBuffer D} {page : List (Entry D)}, b.nextFlush reqs = some page → ∀ e ∈ b.entries,
    ∃ e' ∈ page, e'.key = e.key ∧ ((∀ req ∈ reqs, req.key ≠ e.key) → e' = e)
  := by
  induction reqs with
  | nil =>
      intro b page h
      cases h
  | cons req reqs ih =>
      intro b page h e he
      obtain ⟨b', heq, t, ht, hplace, hother⟩ := alignBuffering_eq b req
      have hkept : ∃ e' ∈ b'.entries, e'.key = e.key ∧ (req.key ≠ e.key → e' = e) := by
        obtain ⟨i, hi, rfl⟩ := mem_entries.mp he
        by_cases hit : i = t
        · subst hit
          obtain ⟨-, hkey, hidx⟩ | ⟨rfl, -, -⟩ := ht
          · refine ⟨_, mem_entries.mpr ⟨i, by omega, rfl⟩, ?_, ?_⟩
            · rw [hplace]
              apply hkey.symm
            · intro hne
              exact absurd hkey.symm hne
          · exact absurd hi (Nat.lt_irrefl _)
        · refine ⟨_, mem_entries.mpr ⟨i, by omega, rfl⟩, ?_, ?_⟩
          · rw [hother i hit]
          · intro _
            apply hother i hit
      obtain ⟨e', he', hkey', hsame'⟩ := hkept
      unfold nextFlush at h
      rw [heq] at h
      by_cases hfull : b'.idx = l2pgap
      · rw [if_pos hfull] at h
        cases h
        use e', he', hkey', fun hreqs => hsame' (hreqs req List.mem_cons_self)
      · rw [if_neg hfull] at h
        obtain ⟨e'', he'', hkey'', hsame''⟩ := ih h e' he'
        use e'', he'', hkey''.trans hkey'
        intro hreqs
        have heq' := hsame' (hreqs req List.mem_cons_self)
        rw [heq'] at hsame''
        apply hsame'' fun r hr => hreqs r (List.mem_cons_of_mem _ hr)

theorem Distinct.alignBuffering (h : Distinct b) (req : Entry D) :
  Distinct (b.alignBuffering req).2
  := by
  obtain ⟨b', heq, t, ht, hplace, hother⟩ := alignBuffering_eq b req
  have hlt := h.lt
  rw [heq]
  by_cases hfull : b'.idx = l2pgap
  · rw [if_pos hfull]
    use (by decide : 0 < l2pgap), fun i j hi => absurd hi (Nat.not_lt_zero i)
  · rw [if_neg hfull]
    change Distinct b'
    use by omega
    have hkey : ∀ j, j ≠ t → b'.key j = b.key j := fun j hj => congrArg Entry.key (hother j hj)
    have hkeyt : b'.key t = req.key := congrArg Entry.key hplace
    have hnew : ∀ j, j < b'.idx → j ≠ t → b.key j ≠ req.key := by
      intro j hj hjt hreq
      obtain ⟨ht, hreq', hidx⟩ | ⟨rfl, hnone, hidx⟩ := ht
      · apply hjt (h.inj j t (by omega) ht (hreq.trans hreq'.symm))
      · apply hnone _ (mem_entries.mpr ⟨j, by omega, rfl⟩) hreq
    intro i j hi hj hij
    by_cases hit : i = t
    · by_cases hjt : j = t
      · rw [hit, hjt]
      · rw [hit, hkeyt, hkey j hjt] at hij
        exact absurd hij.symm (hnew j hj hjt)
    · by_cases hjt : j = t
      · rw [hjt, hkeyt, hkey i hit] at hij
        exact absurd hij (hnew i hi hit)
      · rw [hkey i hit, hkey j hjt] at hij
        apply h.inj i j (by omega) (by omega) hij

/-! ### Removals -/

/-- The loop closes the gap behind `i + 1`, and leaves the last place alone. -/
theorem foldl_shift (b : AlignBuffer D) (n i m : ℕ) :
  ((List.range' (i + 1) m).foldl (shift n) b).idx = b.idx
    ∧ ∀ k, ((List.range' (i + 1) m).foldl (shift n) b).place k
      = if i < k ∧ k < i + 1 + m ∧ k + 1 ≠ n then b.place (k + 1) else b.place k
  := by
  induction m with
  | zero =>
      refine ⟨rfl, fun k => ?_⟩
      rw [if_neg (by omega)]
      rfl
  | succ m ih =>
      obtain ⟨hidx, hplace⟩ := ih
      rw [List.range'_concat, List.foldl_append]
      simp only [Nat.one_mul, List.foldl_cons, List.foldl_nil]
      generalize (List.range' (i + 1) m).foldl (shift n) b = b' at hidx hplace
      unfold shift
      by_cases hn : i + 1 + m + 1 ≠ n
      · rw [if_pos hn]
        refine ⟨hidx, fun k => ?_⟩
        by_cases hk : k = i + 1 + m
        · subst hk
          have hnext := hplace (i + 1 + m + 1)
          rw [if_neg (by omega)] at hnext
          rw [if_pos (by omega), ← hnext]
          simp [place]
        · have hsame : (⟨b'.idx, Function.update b'.prefetchingInfo (i + 1 + m)
              (b'.prefetchingInfo (i + 1 + m + 1)), Function.update b'.key (i + 1 + m)
              (b'.key (i + 1 + m + 1)), Function.update b'.value (i + 1 + m)
              (b'.value (i + 1 + m + 1))⟩ : AlignBuffer D).place k = b'.place k := by
            simp [place, hk]
          rw [hsame, hplace k]
          by_cases hcond : i < k ∧ k < i + 1 + m ∧ k + 1 ≠ n
          · rw [if_pos hcond, if_pos (by omega)]
          · rw [if_neg hcond, if_neg (by omega)]
      · rw [if_neg hn]
        refine ⟨hidx, fun k => ?_⟩
        rw [hplace k]
        by_cases hcond : i < k ∧ k < i + 1 + m ∧ k + 1 ≠ n
        · rw [if_pos hcond, if_pos (by omega)]
        · rw [if_neg hcond, if_neg (by omega)]

/-- A removal takes the entry behind the one with the key, if there is one. -/
theorem entries_pageRemove (h : b.find key = some i) :
  (b.pageRemove key).2.entries = b.entries.eraseIdx (if i + 1 < b.idx then i + 1 else i)
  := by
  obtain ⟨hi, -⟩ := find_eq_some h
  obtain ⟨-, hplace⟩ := foldl_shift b b.idx i (b.idx - (i + 1))
  unfold pageRemove
  rw [h]
  dsimp only
  generalize (List.range' (i + 1) (b.idx - (i + 1))).foldl (shift b.idx) b = b' at hplace
  have hentries : (⟨b.idx - 1, b'.prefetchingInfo, b'.key, b'.value⟩ : AlignBuffer D).entries
      = (List.range (b.idx - 1)).map b'.place := rfl
  rw [hentries]
  apply List.ext_getElem
  · simp only [entries, List.length_map, List.length_range, List.length_eraseIdx]
    split
    · rfl
    · rfl
  · intro k hk _
    rw [List.length_map, List.length_range] at hk
    rw [List.getElem_eraseIdx]
    simp only [entries, List.getElem_map, List.getElem_range]
    rw [hplace k]
    by_cases hlast : i + 1 < b.idx
    · simp only [if_pos hlast]
      by_cases hki : k < i + 1
      · rw [dif_pos hki, if_neg (by omega)]
      · rw [dif_neg hki, if_pos (by omega)]
    · simp only [if_neg hlast]
      rw [dif_pos (by omega), if_neg (by omega)]

theorem distinct_iff :
  Distinct b ↔ b.idx < l2pgap ∧ (b.entries.map Entry.key).Nodup
  := by
  have hkeys : b.entries.map Entry.key = (List.range b.idx).map b.key := by
    unfold entries
    rw [List.map_map]
    rfl
  rw [hkeys]
  constructor
  · intro h
    refine ⟨h.lt, List.Nodup.map_on ?_ List.nodup_range⟩
    intro i hi j hj hij
    apply h.inj i j (List.mem_range.mp hi) (List.mem_range.mp hj) hij
  · rintro ⟨hlt, hnodup⟩
    use hlt
    intro i j hi hj hij
    apply List.inj_on_of_nodup_map hnodup (List.mem_range.mpr hi) (List.mem_range.mpr hj) hij

theorem Distinct.pageRemove (h : Distinct b) (key : ℕ) :
  Distinct (b.pageRemove key).2
  := by
  cases hf : b.find key with
  | none =>
      unfold AlignBuffer.pageRemove
      rw [hf]
      apply h
  | some i =>
      obtain ⟨hlt, hnodup⟩ := distinct_iff.mp h
      rw [distinct_iff, entries_pageRemove hf]
      constructor
      · unfold AlignBuffer.pageRemove
        rw [hf]
        dsimp only
        omega
      · exact ((List.eraseIdx_sublist _ _).map Entry.key).nodup hnodup

theorem Reachable.distinct (h : Reachable b) :
  Distinct b
  := by
  obtain ⟨value, ops, rfl⟩ := h
  have hstart : Distinct (create value) :=
    ⟨(by decide : 0 < l2pgap), fun i j hi => absurd hi (Nat.not_lt_zero i)⟩
  generalize create value = b at hstart
  induction ops generalizing b with
  | nil => apply hstart
  | cons op ops ih =>
      apply ih
      cases op with
      | write req => apply hstart.alignBuffering req
      | remove key => apply hstart.pageRemove key

/-- The entries without the last one. -/
theorem Distinct.filter_last (h : Distinct b) (hi : i + 1 = b.idx) :
  b.entries.eraseIdx i = b.entries.filter fun e => e.key ≠ b.key i
  := by
  unfold entries
  rw [← hi, List.range_succ, List.map_append, List.map_singleton, List.filter_append]
  have hlen : ((List.range i).map b.place).length = i := by
    rw [List.length_map, List.length_range]
  have hother : ((List.range i).map b.place).filter (fun e => e.key ≠ b.key i)
      = (List.range i).map b.place := by
    rw [List.filter_eq_self]
    intro e he
    obtain ⟨j, hj, rfl⟩ := List.mem_map.mp he
    rw [List.mem_range] at hj
    apply decide_eq_true
    intro hkey
    have := h.inj j i (by omega) (by omega) hkey
    omega
  have hlast : [b.place i].filter (fun e => e.key ≠ b.key i) = [] := by
    simp [place]
  rw [hother, hlast, List.append_nil]
  rw [List.eraseIdx_append_of_length_le hlen.le, hlen, Nat.sub_self]
  simp

/-- A removal of the entry in the last place leaves the others, and no other removal does. -/
theorem removesOnly_iff (h : Reachable b) (hmem : ∃ e ∈ b.entries, e.key = key) :
  RemovesOnly b key ↔ b.key (b.idx - 1) = key
  := by
  have hdistinct := h.distinct
  obtain ⟨i, hf⟩ : ∃ i, b.find key = some i := by
    rw [← Option.isSome_iff_exists, Option.isSome_iff_ne_none]
    intro hnone
    obtain ⟨e, he, hkey⟩ := hmem
    apply find_eq_none.mp hnone e he hkey
  obtain ⟨hi, hkey⟩ := find_eq_some hf
  have hentries := entries_pageRemove hf
  constructor
  · intro hremoves
    by_contra hlast
    have hlt : i + 1 < b.idx := by
      rcases Nat.lt_or_ge (i + 1) b.idx with hlt | hge
      · apply hlt
      · obtain rfl : i = b.idx - 1 := by omega
        exact absurd hkey hlast
    rw [if_pos hlt] at hentries
    have hstay : b.place i ∈ b.entries.eraseIdx (i + 1) := by
      rw [List.mem_eraseIdx_iff_getElem?]
      use i, by omega
      unfold entries
      rw [List.getElem?_map, List.getElem?_range hi]
      rfl
    rw [← hentries, hremoves.entries] at hstay
    apply of_decide_eq_true (List.mem_filter.mp hstay).2 hkey
  · intro hlast
    have hi' : i + 1 = b.idx := by
      have := hdistinct.inj i (b.idx - 1) hi (by omega) (hkey.trans hlast.symm)
      omega
    rw [if_neg (by omega), hdistinct.filter_last hi', hkey] at hentries
    have hmem' : ∀ e ∈ b.entries, e.key ≠ key → e ∈ (b.pageRemove key).2.entries := by
      intro e he hne
      rw [hentries]
      apply List.mem_filter.mpr ⟨he, decide_eq_true hne⟩
    refine ⟨hentries, ?_, ?_, ?_⟩
    · unfold pageRead
      rw [Option.map_eq_none_iff, find_eq_none, hentries]
      intro e he
      apply of_decide_eq_true (List.mem_filter.mp he).2
    · intro e he hne
      apply (hdistinct.pageRemove key).pageRead (hmem' e he hne)
    · intro reqs page hpage e he hne
      apply nextFlush_mem reqs hpage e (hmem' e he hne)

/-- The keys `1` and `2` have been written. -/
def twoEntries : AlignBuffer ℕ :=
  [Op.write ⟨1, 10, 0⟩, .write ⟨2, 20, 0⟩].foldl step (create fun _ => 0)

theorem removesOnly_iff_twoEntries :
  RemovesOnly twoEntries 2 ∧ ∃ e ∈ twoEntries.entries, e.key = 2
  := by
  have hmem : ∃ e ∈ twoEntries.entries, e.key = 2 := by decide
  exact ⟨(removesOnly_iff ⟨_, _, rfl⟩ hmem).mpr rfl, hmem⟩

/-- A removal of the first of two entries takes the second one. -/
theorem not_removesOnly_twoEntries :
  Reachable twoEntries ∧ (∃ e ∈ twoEntries.entries, e.key = 1) ∧ ¬ RemovesOnly twoEntries 1
  := by
  use ⟨_, _, rfl⟩, by decide
  intro h
  have hread : (twoEntries.pageRemove 1).2.pageRead 1 = some 10 := rfl
  rw [h.miss] at hread
  cases hread

end AlignBuffer

end Dftl

end AppL
