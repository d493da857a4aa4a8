import AppL.Cache.Presence
import AppL.Cache.Read

/-!
# Reads end once

A read that has been issued is at one of five places: its page is being read, it waits for a
page, its data is being read, or it has ended.  Every page that reads wait for is being read
by one of them.  Hence a read of a written lba ends at most once, and it has ended when no
read is at the device.
-/

namespace AppL

open Transition

/-- The requests in the lists of a map. -/
def waitingIn (m : AList fun _ : ℕ => List ℕ) : List ℕ := m.entries.flatMap Sigma.snd

theorem count_waitingIn_insert (m : AList fun _ : ℕ => List ℕ) (i : ℕ) (l : List ℕ) (r : ℕ) :
  (waitingIn (m.insert i l)).count r = l.count r + (waitingIn (m.erase i)).count r
  := by
  unfold waitingIn
  rw [AList.entries_insert, List.flatMap_cons, List.count_append]
  rfl

theorem count_waitingIn {m : AList fun _ : ℕ => List ℕ} {i : ℕ} {l : List ℕ}
    (h : m.lookup i = some l) (r : ℕ) :
  (waitingIn m).count r = l.count r + (waitingIn (m.erase i)).count r
  := by
  have hmem : (⟨i, l⟩ : Sigma fun _ : ℕ => List ℕ) ∈ m.entries := AList.mem_lookup_iff.mp h
  obtain ⟨l', l₁, l₂, hnot, heq, herase⟩ := List.exists_of_kerase (List.mem_keys_of_mem hmem)
  have hl : l' = l := by
    have hmem' : (⟨i, l'⟩ : Sigma fun _ : ℕ => List ℕ) ∈ m.entries := by
      rw [heq]
      simp
    have := AList.mem_lookup_iff.mpr hmem'
    rw [h] at this
    apply (Option.some.inj this).symm
  subst hl
  have hflat : waitingIn m = l₁.flatMap Sigma.snd ++ (l' ++ l₂.flatMap Sigma.snd) := by
    unfold waitingIn
    rw [heq, List.flatMap_append, List.flatMap_cons]
  have hflat' : waitingIn (m.erase i) = l₁.flatMap Sigma.snd ++ l₂.flatMap Sigma.snd := by
    change (List.kerase i m.entries).flatMap Sigma.snd = _
    rw [herase, List.flatMap_append]
  rw [hflat, hflat']
  simp only [List.count_append]
  omega

theorem waitingIn_erase {m : AList fun _ : ℕ => List ℕ} {i : ℕ} (h : m.lookup i = none) :
  waitingIn (m.erase i) = waitingIn m
  := by
  unfold waitingIn
  change (List.kerase i m.entries).flatMap Sigma.snd = _
  rw [List.kerase_of_notMem_keys]
  apply AList.lookup_eq_none.mp h

/-- A request joins those that wait for page `id`: the first one reads it. -/
def Joined (m m' : AList fun _ : ℕ => List ℕ) (reading reading' : List ℕ) (id req : ℕ) : Prop :=
  (m.lookup id = none ∧ m' = m.insert id [] ∧ reading' = reading ++ [req])
    ∨ ∃ rs, m.lookup id = some rs ∧ m' = m.insert id (rs ++ [req]) ∧ reading' = reading

section Joined

variable {m m' : AList fun _ : ℕ => List ℕ} {reading reading' : List ℕ} {id req : ℕ}

theorem Joined.count (h : Joined m m' reading reading' id req) (r : ℕ) :
  reading'.count r + (waitingIn m').count r
    = reading.count r + (waitingIn m).count r + [req].count r
  := by
  obtain ⟨hl, rfl, rfl⟩ | ⟨rs, hl, rfl, rfl⟩ := h
  · rw [count_waitingIn_insert, waitingIn_erase hl, List.count_append, List.count_nil]
    omega
  · rw [count_waitingIn_insert, count_waitingIn hl r, List.count_append]
    omega

theorem Joined.mono (h : Joined m m' reading reading' id req) {r : ℕ} (hr : r ∈ reading) :
  r ∈ reading'
  := by
  obtain ⟨-, -, rfl⟩ | ⟨rs, -, -, rfl⟩ := h
  · apply List.mem_append_left _ hr
  · apply hr

theorem Joined.mem (h : Joined m m' reading reading' id req) {i : ℕ} (hi : i ∈ m') :
  i ∈ m ∨ i = id ∧ req ∈ reading'
  := by
  obtain ⟨-, rfl, rfl⟩ | ⟨rs, hl, rfl, rfl⟩ := h
  · obtain rfl | hi := (AList.mem_insert m).mp hi
    · right
      exact ⟨rfl, by simp⟩
    · left
      apply hi
  · obtain rfl | hi := (AList.mem_insert m).mp hi
    · left
      apply AList.lookup_isSome.mp
      rw [hl]
      rfl
    · left
      apply hi

end Joined

theorem await_sc (pcs : PcSet) (i req : ℕ) :
  Joined pcs.pendingScReqMap (pcs.await .shortcut i req).pendingScReqMap
      pcs.reading (pcs.await .shortcut i req).reading i req
    ∧ (pcs.await .shortcut i req).pendingReqMap = pcs.pendingReqMap
    ∧ (pcs.await .shortcut i req).scPinning = pcs.scPinning
  := by
  unfold PcSet.await
  cases hl : pcs.pendingScReqMap.lookup i with
  | none => exact ⟨.inl ⟨hl, rfl, rfl⟩, rfl, rfl⟩
  | some rs => exact ⟨.inr ⟨rs, hl, rfl, rfl⟩, rfl, rfl⟩

theorem await_idx (pcs : PcSet) (pba req : ℕ) :
  Joined pcs.pendingReqMap (pcs.await .idx pba req).pendingReqMap
      pcs.reading (pcs.await .idx pba req).reading pba req
    ∧ (pcs.await .idx pba req).pendingScReqMap = pcs.pendingScReqMap
    ∧ (pcs.await .idx pba req).scPinning = pcs.scPinning
  := by
  unfold PcSet.await
  cases hl : pcs.pendingReqMap.lookup pba with
  | none => exact ⟨.inl ⟨hl, rfl, rfl⟩, rfl, rfl⟩
  | some rs => exact ⟨.inr ⟨rs, hl, rfl, rfl⟩, rfl, rfl⟩

namespace Reads

open CacheLayer

variable {g : Geometry} {s s' : Reads} {hand : List ℕ} {req : ℕ}

/-- The places of the requests. -/
def places (s : Reads) : List ℕ :=
  s.c.pcs.reading ++ waitingIn s.c.pcs.pendingScReqMap ++ waitingIn s.c.pcs.pendingReqMap
    ++ s.dataReading ++ s.ends.map Prod.fst

theorem count_places (s : Reads) (r : ℕ) :
  s.places.count r = s.c.pcs.reading.count r + (waitingIn s.c.pcs.pendingScReqMap).count r
    + (waitingIn s.c.pcs.pendingReqMap).count r + s.dataReading.count r
    + (s.ends.map Prod.fst).count r
  := by
  unfold places
  simp only [List.count_append]

/-- The shortcut and the indexes are correct: every written lba is found in its run. -/
def Correct (tree : Tree) (written : ℕ → Bool) : Prop :=
  ∀ lba, written lba = true → ∃ r, tree.owner lba = some r ∧ tree.query r lba ≠ .notFound

/-- The invariant of the reads, while the requests in `hand` are taken up. -/
structure Inv (hand : List ℕ) (s : Reads) : Prop where
  nodup : s.issued.Nodup
  atMost : ∀ r, s.places.count r + hand.count r ≤ s.issued.count r
  atLeast : ∀ r ∈ s.promised, 1 ≤ s.places.count r + hand.count r
  scLed : ∀ i ∈ s.c.pcs.pendingScReqMap, ∃ r ∈ s.c.pcs.reading,
    s.flag r = .sc ∧ s.key r / ridxinpage = i
  idxLed : ∀ pba ∈ s.c.pcs.pendingReqMap, ∃ r ∈ s.c.pcs.reading, ∃ size, s.flag r = .map pba size
  written : ∀ r ∈ s.promised, s.written (s.key r) = true
  found : ∀ r, (r, .notFound) ∈ s.ends → r ∉ s.promised
  correct : Correct s.tree s.written
  present : ∀ lba, s.written lba = true → s.tree.memtable lba = .notFound →
    s.c.pcs.scPinning = true ∨ PresentIn s.c.pcs.cachedSc (lba / ridxinpage)

/-- A request in the hand is not read for. -/
theorem Inv.notMem_reading (h : Inv (req :: hand) s) :
  req ∉ s.c.pcs.reading
  := by
  intro hmem
  have h₁ := h.atMost req
  have h₂ := List.nodup_iff_count_le_one.mp h.nodup req
  have h₃ := List.count_pos_iff.mpr hmem
  rw [count_places, List.count_cons_self] at h₁
  omega

theorem Inv.perm {hand' : List ℕ} (h : Inv hand s) (hp : hand.Perm hand') :
  Inv hand' s
  := by
  refine { h with atMost := ?_, atLeast := ?_ }
  · intro r
    rw [← hp.count_eq]
    apply h.atMost r
  · intro r hr
    rw [← hp.count_eq]
    apply h.atLeast r hr

/-- The cache layer does something that no request waits for. -/
theorem Inv.calm {c : CacheLayer} (h : Inv hand s) (hc : Calm s.c c) :
  Inv hand { s with c := c }
  := by
  obtain ⟨⟨h₁, h₂, h₃, h₄⟩, hpres⟩ := hc
  have hplaces : ({ s with c := c } : Reads).places = s.places := by
    unfold places
    dsimp only
    rw [h₁, h₂, h₃]
  refine { h with atMost := ?_, atLeast := ?_, scLed := ?_, idxLed := ?_, present := ?_ }
  · rw [hplaces]
    apply h.atMost
  · rw [hplaces]
    apply h.atLeast
  · dsimp only
    rw [h₁, h₃]
    apply h.scLed
  · dsimp only
    rw [h₁, h₂]
    apply h.idxLed
  · intro lba hw hm
    dsimp only
    rw [h₄]
    apply (h.present lba hw hm).imp id (hpres _)

/-- A request that is not promised is lost. -/
theorem Inv.drop (h : Inv (req :: hand) s) (hr : req ∉ s.promised) :
  Inv hand s
  := by
  refine { h with atMost := ?_, atLeast := ?_ }
  · intro r
    have hmost := h.atMost r
    rw [List.count_cons] at hmost
    omega
  · intro r hr'
    have hne : req ≠ r := by
      rintro rfl
      apply hr hr'
    have := h.atLeast r hr'
    rw [List.count_cons_of_ne hne] at this
    apply this

/-- The requests in the hand and at the places together, when one goes from the hand to a
place. -/
theorem Inv.moved (h : Inv (req :: hand) s) (s' : Reads) (hi : s'.issued = s.issued)
    (hp : s'.promised = s.promised)
    (hcount : ∀ r, s'.places.count r = s.places.count r + [req].count r) :
  (∀ r, s'.places.count r + hand.count r ≤ s'.issued.count r)
    ∧ ∀ r ∈ s'.promised, 1 ≤ s'.places.count r + hand.count r
  := by
  have hsum : ∀ r, s'.places.count r + hand.count r = s.places.count r + (req :: hand).count r := by
    intro r
    rw [hcount, List.count_cons, List.count_cons, List.count_nil]
    omega
  constructor
  · intro r
    rw [hsum, hi]
    apply h.atMost r
  · intro r hr
    rw [hsum]
    rw [hp] at hr
    apply h.atLeast r hr

/-- A request ends. -/
theorem Inv.endReq {type : EndType} (h : Inv (req :: hand) s)
    (ht : type = .notFound → req ∉ s.promised) :
  Inv hand (s.endReq req type)
  := by
  obtain ⟨hmost, hleast⟩ := h.moved (s.endReq req type) rfl rfl (by
    intro r
    rw [count_places, count_places]
    simp only [Reads.endReq, List.map_append, List.count_append, List.map_cons, List.map_nil]
    omega)
  refine { h with atMost := hmost, atLeast := hleast, found := ?_ }
  intro r hr
  change (r, EndType.notFound) ∈ s.ends ++ [(req, type)] at hr
  rw [List.mem_append, List.mem_singleton] at hr
  obtain hr | hr := hr
  · apply h.found r hr
  · obtain ⟨rfl, rfl⟩ := Prod.mk.inj hr
    apply ht rfl

/-- The flag of a request in the hand is set. -/
theorem Inv.setFlag (h : Inv (req :: hand) s) (flag : ReqFlag) :
  Inv (req :: hand) (s.setFlag req flag)
  := by
  have hflag : ∀ r ∈ s.c.pcs.reading, (s.setFlag req flag).flag r = s.flag r := by
    intro r hr
    apply Function.update_of_ne
    rintro rfl
    apply h.notMem_reading hr
  refine { h with scLed := ?_, idxLed := ?_ }
  · intro i hi
    obtain ⟨r, hr, hled⟩ := h.scLed i hi
    use r, hr
    rw [hflag r hr]
    apply hled
  · intro pba hpba
    obtain ⟨r, hr, hled⟩ := h.idxLed pba hpba
    use r, hr
    rw [hflag r hr]
    apply hled

/-- The data of a request is read. -/
theorem Inv.readData (h : Inv (req :: hand) s) :
  Inv hand { s with dataReading := s.dataReading ++ [req] }
  := by
  obtain ⟨hmost, hleast⟩ := h.moved ({ s with dataReading := s.dataReading ++ [req] })
    rfl rfl (by
      intro r
      rw [count_places, count_places]
      simp only [List.count_append]
      omega)
  exact { h with atMost := hmost, atLeast := hleast }

/-- A request waits for a shortcut page. -/
theorem Inv.awaitSc {i : ℕ} {c : CacheLayer} (h : Inv (req :: hand) s)
    (hkey : s.key req / ridxinpage = i)
    (hsame : SameRequests (s.c.pcs.await .shortcut i req) c.pcs)
    (hpres : ∀ j, PresentIn s.c.pcs.cachedSc j → PresentIn c.pcs.cachedSc j) :
  Inv hand (({ s with c := c } : Reads).setFlag req .sc)
  := by
  have hf := h.setFlag .sc
  have hreq : (s.setFlag req .sc).flag req = .sc := Function.update_self ..
  obtain ⟨hjoin, hidx, hpin⟩ := await_sc s.c.pcs i req
  obtain ⟨h₁, h₂, h₃, h₄⟩ := hsame
  rw [← h₁, ← h₃] at hjoin
  rw [hidx] at h₂
  rw [hpin] at h₄
  obtain ⟨hmost, hleast⟩ := h.moved (({ s with c := c } : Reads).setFlag req .sc) rfl rfl (by
    intro r
    have hcount := hjoin.count r
    rw [count_places, count_places]
    simp only [Reads.setFlag, h₂]
    omega)
  refine { h with atMost := hmost, atLeast := hleast, scLed := ?_, idxLed := ?_, present := ?_ }
  · intro j hj
    obtain hj | ⟨rfl, hmem⟩ := hjoin.mem hj
    · obtain ⟨r, hr, hled⟩ := hf.scLed j hj
      exact ⟨r, hjoin.mono hr, hled⟩
    · use req, hmem, hreq, hkey
  · intro pba hpba
    change pba ∈ c.pcs.pendingReqMap at hpba
    rw [h₂] at hpba
    obtain ⟨r, hr, hled⟩ := hf.idxLed pba hpba
    exact ⟨r, hjoin.mono hr, hled⟩
  · intro lba hw hm
    change c.pcs.scPinning = true ∨ _
    rw [h₄]
    apply (h.present lba hw hm).imp id (hpres _)

/-- A request waits for an index. -/
theorem Inv.awaitIdx {pba size : ℕ} {c : CacheLayer} (h : Inv (req :: hand) s)
    (hsame : SameRequests (s.c.pcs.await .idx pba req) c.pcs)
    (hpres : ∀ j, PresentIn s.c.pcs.cachedSc j → PresentIn c.pcs.cachedSc j) :
  Inv hand (({ s with c := c } : Reads).setFlag req (.map pba size))
  := by
  have hf := h.setFlag (.map pba size)
  have hreq : (s.setFlag req (.map pba size)).flag req = .map pba size := Function.update_self ..
  obtain ⟨hjoin, hsc, hpin⟩ := await_idx s.c.pcs pba req
  obtain ⟨h₁, h₂, h₃, h₄⟩ := hsame
  rw [← h₁, ← h₂] at hjoin
  rw [hsc] at h₃
  rw [hpin] at h₄
  obtain ⟨hmost, hleast⟩ := h.moved
    (({ s with c := c } : Reads).setFlag req (.map pba size)) rfl rfl (by
      intro r
      have hcount := hjoin.count r
      rw [count_places, count_places]
      simp only [Reads.setFlag, h₃]
      omega)
  refine { h with atMost := hmost, atLeast := hleast, scLed := ?_, idxLed := ?_, present := ?_ }
  · intro i hi
    change i ∈ c.pcs.pendingScReqMap at hi
    rw [h₃] at hi
    obtain ⟨r, hr, hled⟩ := hf.scLed i hi
    exact ⟨r, hjoin.mono hr, hled⟩
  · intro p hp
    obtain hp | ⟨rfl, hmem⟩ := hjoin.mem hp
    · obtain ⟨r, hr, hled⟩ := hf.idxLed p hp
      exact ⟨r, hjoin.mono hr, hled⟩
    · use req, hmem, size, hreq
  · intro lba hw hm
    change c.pcs.scPinning = true ∨ _
    rw [h₄]
    apply (h.present lba hw hm).imp id (hpres _)

/-! ### The parts of a read -/

/-- `run_query`: the request goes on unless it is not found. -/
theorem runQuery_inv {q : Query} (h : Inv (req :: hand) s) :
  ((s.runQuery req q).1 = true → Inv hand (s.runQuery req q).2)
    ∧ ((s.runQuery req q).1 = false → Inv (req :: hand) (s.runQuery req q).2 ∧ q = .notFound)
  := by
  cases q with
  | buffered => use fun _ => h.endReq (by simp), by simp [runQuery]
  | issued => use fun _ => (h.setFlag .data).readData, by simp [runQuery]
  | notFound => use by simp [runQuery], fun _ => ⟨h, rfl⟩

/-- A promised request is found. -/
theorem Inv.query_ne {r : ℕ} (h : Inv hand s) (hr : req ∈ s.promised)
    (ho : s.tree.owner (s.key req) = some r) :
  s.tree.query r (s.key req) ≠ .notFound
  := by
  obtain ⟨r', hr', hq⟩ := h.correct _ (h.written req hr)
  rw [ho] at hr'
  cases hr'
  apply hq

theorem askIdx_inv {r : ℕ} {b : Bool} (h : Inv (req :: hand) s)
    (ho : s.tree.owner (s.key req) = some r) (hs : s.askIdx g req r = .ok (b, s')) :
  Inv hand s'
  := by
  obtain ⟨⟨hit, c⟩, h₁, hs⟩ := bind_eq_ok.mp hs
  obtain ⟨hasked, hpres⟩ := idxRead_calm h₁
  dsimp only at hs
  split at hs
  · rename_i hhit
    subst hhit
    have hsame : SameRequests s.c.pcs c.pcs := by
      rcases hasked with ⟨hw, -⟩ | ⟨-, hsame⟩
      · cases hw
      · apply hsame
    have hc := h.calm (c := c) ⟨hsame, hpres⟩
    obtain ⟨htrue, hfalse⟩ := runQuery_inv (q := s.tree.query r (s.key req)) hc
    obtain ⟨rfl, rfl⟩ := Prod.mk.inj (Except.ok.inj hs)
    cases hres : (Reads.runQuery { s with c := c } req (s.tree.query r (s.key req))).1 with
    | true => apply htrue hres
    | false =>
        obtain ⟨hinv, hq⟩ := hfalse hres
        have hnot : req ∉ s.promised := fun hr => h.query_ne hr ho hq
        apply hinv.drop
        rw [hq]
        apply hnot
  · rename_i hhit
    cases hs
    rcases hasked with ⟨-, hsame⟩ | ⟨hw, -⟩
    · apply h.awaitIdx hsame hpres
    · simp only [Bool.not_eq_true] at hhit
      exact absurd hhit hw

/-- `lsmtree_pending_sc`. -/
theorem pendingSc_inv {b : Bool} (h : Inv (req :: hand) s)
    (hs : s.pendingSc g req = .ok (b, s')) :
  Inv hand s'
  := by
  obtain ⟨c, h₁, hs⟩ := bind_eq_ok.mp hs
  have hc := h.calm (scRetry_calm h₁)
  dsimp only at hs
  split at hs
  · rename_i ho
    cases hs
    apply hc.endReq
    intro _ hr
    obtain ⟨r, hr', -⟩ := h.correct _ (h.written req hr)
    rw [ho] at hr'
    cases hr'
  · rename_i r ho
    apply askIdx_inv hc ho hs

/-- `lsmtree_pending_idx`. -/
theorem pendingIdx_inv {b : Bool} (h : Inv (req :: hand) s)
    (hs : s.pendingIdx g req = .ok (b, s')) :
  (b = true → Inv hand s') ∧ (b = false → Inv (req :: hand) s' ∧ req ∉ s'.promised)
  := by
  unfold pendingIdx at hs
  split at hs
  · obtain ⟨c, h₁, hs⟩ := bind_eq_ok.mp hs
    obtain ⟨r, ho, hs⟩ := bind_eq_ok.mp hs
    rw [orThrow_eq_ok] at ho
    have hc := h.calm (idxRetry_calm h₁)
    obtain ⟨htrue, hfalse⟩ := runQuery_inv (q := s.tree.query r (s.key req)) hc
    obtain ⟨rfl, rfl⟩ := Prod.mk.inj (Except.ok.inj hs)
    use htrue
    intro hb
    obtain ⟨hinv, hq⟩ := hfalse hb
    use hinv
    intro hr
    apply h.query_ne (r := r) _ ho hq
    dsimp only at hr
    rw [hq] at hr
    apply hr
  · cases hs

/-- The requests that have waited are taken up one after another. -/
theorem takeUp_inv (hand : List ℕ) {pending : Reads → ℕ → Except Abort (Bool × Reads)}
    (hpending : ∀ {s s' : Reads} {b : Bool} {req : ℕ} {hand : List ℕ}, Inv (req :: hand) s →
      pending s req = .ok (b, s') → Inv hand s') {rs : List ℕ} :
  ∀ {s s' : Reads}, Inv (rs ++ hand) s → takeUp pending s rs = .ok s' → Inv hand s'
  := by
  induction rs with
  | nil =>
      intro s s' h hs
      cases hs
      apply h
  | cons r rs ih =>
      intro s s' h hs
      obtain ⟨⟨b, s₁⟩, h₁, hs⟩ := bind_eq_ok.mp hs
      apply ih (hpending h h₁) hs

theorem runQuery_promised (s : Reads) (req : ℕ) (q : Query) :
  (s.runQuery req q).2.promised = s.promised
  := by
  cases q with
  | buffered => rfl
  | issued => rfl
  | notFound => rfl

theorem takeUp_promised {rs : List ℕ} :
  ∀ {s s' : Reads}, takeUp (pendingIdx g) s rs = .ok s' → s'.promised = s.promised
  := by
  induction rs with
  | nil =>
      intro s s' hs
      cases hs
      rfl
  | cons r rs ih =>
      intro s s' hs
      obtain ⟨⟨b, s₁⟩, h₁, hs⟩ := bind_eq_ok.mp hs
      rw [ih hs]
      unfold pendingIdx at h₁
      split at h₁
      · obtain ⟨c, -, h₁⟩ := bind_eq_ok.mp h₁
        obtain ⟨o, -, h₁⟩ := bind_eq_ok.mp h₁
        obtain ⟨rfl, rfl⟩ := Prod.mk.inj (Except.ok.inj h₁)
        apply runQuery_promised
      · cases h₁

/-- The requests that wait for a shortcut page are in the hand with the one that has read
it. -/
theorem Inv.recallSc {rs : List ℕ} (h : Inv [] s) (hmem : req ∈ s.c.pcs.reading)
    (hflag : s.flag req = .sc)
    (hl : s.c.pcs.pendingScReqMap.lookup (s.key req / ridxinpage) = some rs) :
  Inv (req :: rs) { s with c := { s.c with pcs := { s.c.pcs with
    reading := s.c.pcs.reading.erase req
    pendingScReqMap := s.c.pcs.pendingScReqMap.erase (s.key req / ridxinpage) } } }
  := by
  have hcount : ∀ r, ({ s with c := { s.c with pcs := { s.c.pcs with
      reading := s.c.pcs.reading.erase req
      pendingScReqMap := s.c.pcs.pendingScReqMap.erase (s.key req / ridxinpage) } } } :
      Reads).places.count r + (req :: rs).count r = s.places.count r := by
    intro r
    have hperm := (List.perm_cons_erase hmem).count_eq r
    rw [count_places, count_places, count_waitingIn hl r, hperm]
    simp only [List.count_cons]
    omega
  refine { h with atMost := ?_, atLeast := ?_, scLed := ?_, idxLed := ?_ }
  · intro r
    rw [hcount]
    apply h.atMost r
  · intro r hr
    rw [hcount]
    apply h.atLeast r hr
  · intro i hi
    obtain ⟨hne, hi⟩ := AList.mem_erase.mp hi
    obtain ⟨r, hr, hf, hkey⟩ := h.scLed i hi
    have hreq : r ≠ req := by
      rintro rfl
      apply hne hkey.symm
    use r, (List.mem_erase_of_ne hreq).mpr hr, hf, hkey
  · intro pba hpba
    obtain ⟨r, hr, size, hf⟩ := h.idxLed pba hpba
    have hreq : r ≠ req := by
      rintro rfl
      rw [hflag] at hf
      cases hf
    use r, (List.mem_erase_of_ne hreq).mpr hr, size, hf

/-- The same for an index. -/
theorem Inv.recallIdx {rs : List ℕ} {pba size : ℕ} (h : Inv [] s)
    (hmem : req ∈ s.c.pcs.reading) (hflag : s.flag req = .map pba size)
    (hl : s.c.pcs.pendingReqMap.lookup pba = some rs) :
  Inv (req :: rs) { s with c := { s.c with pcs := { s.c.pcs with
    reading := s.c.pcs.reading.erase req
    pendingReqMap := s.c.pcs.pendingReqMap.erase pba } } }
  := by
  have hcount : ∀ r, ({ s with c := { s.c with pcs := { s.c.pcs with
      reading := s.c.pcs.reading.erase req
      pendingReqMap := s.c.pcs.pendingReqMap.erase pba } } } :
      Reads).places.count r + (req :: rs).count r = s.places.count r := by
    intro r
    have hperm := (List.perm_cons_erase hmem).count_eq r
    rw [count_places, count_places, count_waitingIn hl r, hperm]
    simp only [List.count_cons]
    omega
  refine { h with atMost := ?_, atLeast := ?_, scLed := ?_, idxLed := ?_ }
  · intro r
    rw [hcount]
    apply h.atMost r
  · intro r hr
    rw [hcount]
    apply h.atLeast r hr
  · intro i hi
    obtain ⟨r, hr, hf, hkey⟩ := h.scLed i hi
    have hreq : r ≠ req := by
      rintro rfl
      rw [hflag] at hf
      cases hf
    use r, (List.mem_erase_of_ne hreq).mpr hr, hf, hkey
  · intro p hp
    obtain ⟨hne, hp⟩ := AList.mem_erase.mp hp
    obtain ⟨r, hr, size', hf⟩ := h.idxLed p hp
    have hreq : r ≠ req := by
      rintro rfl
      rw [hflag] at hf
      cases hf
      apply hne rfl
    use r, (List.mem_erase_of_ne hreq).mpr hr, size', hf

/-! ### The events -/

/-- What the callers of the reads keep to: the shortcut and the indexes stay correct, a write
puts its lba into the memtable, and a compaction updates the shortcut pages of the lbas that
leave the memtable. -/
def TreeKept (s : Reads) : Op → Prop
  | .write lba tree => Correct tree (Function.update s.written lba true) ∧
      ∀ l, tree.memtable l = .notFound → l ≠ lba ∧ s.tree.memtable l = .notFound
  | .compaction ops tree => Correct tree s.written ∧
      ∀ l, s.written l = true → tree.memtable l = .notFound → s.tree.memtable l = .notFound
        ∨ ∃ lbaSet orders, .scUpdate lbaSet orders ∈ ops ∧ l ∈ lbaSet
  | _ => True

/-- A new read of an lba that is not in the memtable finds its shortcut page cached, or finds
the cache with space for a page or with a page to evict. -/
def HasRoom (s : Reads) : Op → Prop
  | .read _ lba => s.tree.memtable lba = .notFound → s.c.pcs.scPinning = true
      ∨ s.c.scFlag (lba / ridxinpage) ≠ some .empty
      ∨ ¬ (s.c.pcs.hasSpace pagesize = false ∧ u32 s.c.pcs.nowCachedSize < pagesize)
  | _ => True

instance (s : Reads) (op : Op) : Decidable (HasRoom s op) := by
  unfold HasRoom
  cases op
  all_goals infer_instance

/-- The part of a new read after the memtable. -/
theorem readMiss_inv (h : Inv (req :: hand) s)
    (hpres : req ∈ s.promised → s.c.pcs.scPinning = true
      ∨ PresentIn s.c.pcs.cachedSc (s.key req / ridxinpage))
    (hroom : s.c.pcs.scPinning = true ∨ s.c.scFlag (s.key req / ridxinpage) ≠ some .empty
      ∨ ¬ (s.c.pcs.hasSpace pagesize = false ∧ u32 s.c.pcs.nowCachedSize < pagesize))
    (hs : s.readMiss g req = .ok s') :
  Inv hand s'
  := by
  obtain ⟨⟨res, c⟩, h₁, hs⟩ := bind_eq_ok.mp hs
  obtain ⟨hasked, hkeep⟩ := scRead_calm h₁
  have hanswer : req ∈ s.promised → res = .hit ∨ res = .waiting
    := fun hr => scRead_present (hpres hr) hroom h₁
  have hcalm : res ≠ .waiting → Inv (req :: hand) { s with c := c } := by
    intro hne
    rcases hasked with ⟨hw, -⟩ | ⟨-, hsame⟩
    · exact absurd hw hne
    · apply h.calm ⟨hsame, hkeep⟩
  dsimp only at hs
  split at hs
  · have hc := hcalm (by simp)
    split at hs
    · rename_i ho
      cases hs
      apply hc.endReq
      intro _ hr
      obtain ⟨r, hr', -⟩ := h.correct _ (h.written req hr)
      rw [ho] at hr'
      cases hr'
    · rename_i r ho
      obtain ⟨⟨b, s₁⟩, h₂, hs⟩ := bind_eq_ok.mp hs
      cases hs
      apply askIdx_inv hc ho h₂
  · cases hs
    rcases hasked with ⟨-, hsame⟩ | ⟨hw, -⟩
    · apply h.awaitSc rfl hsame hkeep
    · exact absurd rfl hw
  · rename_i hhit hwait
    cases hs
    apply (hcalm hwait).endReq
    intro _ hr
    rcases hanswer hr with rfl | rfl
    · apply hhit rfl
    · apply hwait rfl

/-- A request is issued and taken in the hand. -/
theorem Inv.issue (h : Inv [] s) (hreq : req ∉ s.issued) (lba : ℕ) :
  Inv [req] { s with
    issued := req :: s.issued
    promised := if s.written lba = true then req :: s.promised else s.promised
    key := Function.update s.key req lba
    flag := Function.update s.flag req .init }
  := by
  have hnone : ∀ {r}, s.issued.count r = 0 → s.places.count r = 0 := by
    intro r hr
    have := h.atMost r
    omega
  have hzero : s.places.count req = 0 := hnone (List.count_eq_zero.mpr hreq)
  have hread : ∀ r ∈ s.c.pcs.reading, r ≠ req := by
    rintro r hr rfl
    have hpos := List.count_pos_iff.mpr hr
    rw [count_places] at hzero
    omega
  have hpromised : ∀ r ∈ s.promised, r ≠ req := by
    rintro r hr rfl
    have hle := h.atLeast r hr
    rw [hzero, List.count_nil] at hle
    omega
  have hmem : ∀ r, r ∈ (if s.written lba = true then req :: s.promised else s.promised) →
      (r = req ∧ s.written lba = true) ∨ r ∈ s.promised := by
    intro r hr
    split at hr
    · rename_i hw
      apply (List.mem_cons.mp hr).imp (fun h => ⟨h, hw⟩) id
    · right
      apply hr
  refine { h with
    nodup := List.nodup_cons.mpr ⟨hreq, h.nodup⟩
    atMost := ?_, atLeast := ?_, scLed := ?_, idxLed := ?_, written := ?_, found := ?_ }
  · intro r
    have hmost := h.atMost r
    change s.places.count r + [req].count r ≤ (req :: s.issued).count r
    simp only [List.count_cons, List.count_nil] at hmost ⊢
    omega
  · intro r hr
    change 1 ≤ s.places.count r + [req].count r
    obtain ⟨rfl, -⟩ | hr := hmem r hr
    · rw [List.count_cons_self]
      omega
    · have hle := h.atLeast r hr
      rw [List.count_nil] at hle
      omega
  · intro i hi
    obtain ⟨r, hr, hf, hkey⟩ := h.scLed i hi
    refine ⟨r, hr, ?_, ?_⟩
    · dsimp only
      rw [Function.update_of_ne (hread r hr), hf]
    · dsimp only
      rw [Function.update_of_ne (hread r hr), hkey]
  · intro pba hpba
    obtain ⟨r, hr, size, hf⟩ := h.idxLed pba hpba
    use r, hr, size
    dsimp only
    rw [Function.update_of_ne (hread r hr), hf]
  · intro r hr
    dsimp only
    obtain ⟨rfl, hw⟩ | hr := hmem r hr
    · rw [Function.update_self]
      apply hw
    · rw [Function.update_of_ne (hpromised r hr)]
      apply h.written r hr
  · intro r hr hr'
    obtain ⟨rfl, -⟩ | hr' := hmem r hr'
    · have hpos : 0 < (s.ends.map Prod.fst).count r
        := List.count_pos_iff.mpr (List.mem_map_of_mem hr)
      rw [count_places] at hzero
      omega
    · apply h.found r hr hr'

/-- `lsmtree_read` of a new request. -/
theorem read_inv {lba : ℕ} (h : Inv [] s) (hroom : HasRoom s (.read req lba))
    (hs : s.read g req lba = .ok s') :
  Inv [] s'
  := by
  obtain ⟨_, hreq, hs⟩ := bind_eq_ok.mp hs
  rw [require_eq_ok] at hreq
  have hissue := h.issue hreq lba
  dsimp only at hs
  split at hs
  · rename_i hm
    apply readMiss_inv hissue _ _ hs
    · intro hr
      apply hissue.present
      · apply hissue.written req hr
      · dsimp only
        rw [Function.update_self]
        apply hm
    · dsimp only
      rw [Function.update_self]
      apply hroom hm
  · rename_i hm
    have hs := Except.ok.inj hs
    subst hs
    obtain ⟨htrue, hfalse⟩ := runQuery_inv (q := s.tree.memtable lba) hissue
    cases hres : (Reads.runQuery { s with
        issued := req :: s.issued
        promised := if s.written lba = true then req :: s.promised else s.promised
        key := Function.update s.key req lba
        flag := Function.update s.flag req .init } req (s.tree.memtable lba)).1 with
    | true => apply htrue hres
    | false => exact absurd (hfalse hres).2 hm

/-- `lsmtree_read` of a request that comes back. -/
theorem retry_inv (h : Inv [] s) (hs : s.retry g req = .ok s') :
  Inv [] s'
  := by
  obtain ⟨_, hmem, hs⟩ := bind_eq_ok.mp hs
  rw [require_eq_ok] at hmem
  dsimp only at hs
  split at hs
  · rename_i hflag
    obtain ⟨⟨rs, s₁⟩, h₁, hs⟩ := bind_eq_ok.mp hs
    obtain ⟨⟨rs', c⟩, hget, h₁⟩ := bind_eq_ok.mp h₁
    obtain ⟨rs'', hl, hget⟩ := bind_eq_ok.mp hget
    rw [orThrow_eq_ok] at hl
    cases hget
    cases h₁
    obtain ⟨⟨b, s₂⟩, h₂, hs⟩ := bind_eq_ok.mp hs
    have hinv := pendingSc_inv (h.recallSc hmem hflag hl) h₂
    apply takeUp_inv [] (fun hi hp => pendingSc_inv hi hp) _ hs
    simpa using hinv
  · rename_i pba size hflag
    obtain ⟨⟨rs, s₁⟩, h₁, hs⟩ := bind_eq_ok.mp hs
    obtain ⟨⟨rs', c⟩, hget, h₁⟩ := bind_eq_ok.mp h₁
    obtain ⟨rs'', hl, hget⟩ := bind_eq_ok.mp hget
    rw [orThrow_eq_ok] at hl
    cases hget
    cases h₁
    obtain ⟨⟨b, s₂⟩, h₂, hs⟩ := bind_eq_ok.mp hs
    obtain ⟨s₃, h₃, hs⟩ := bind_eq_ok.mp hs
    obtain ⟨htrue, hfalse⟩ := pendingIdx_inv (h.recallIdx hmem hflag hl) h₂
    have hone : ∀ {s s' : Reads} {b : Bool} {req : ℕ} {hand : List ℕ}, Inv (req :: hand) s →
        pendingIdx g s req = .ok (b, s') → Inv hand s' := by
      intro s s' b req hand hi hp
      obtain ⟨htrue, hfalse⟩ := pendingIdx_inv hi hp
      cases b with
      | true => apply htrue rfl
      | false => apply (hfalse rfl).1.drop (hfalse rfl).2
    cases b with
    | true =>
        cases hs
        apply takeUp_inv [] hone _ h₃
        simpa using htrue rfl
    | false =>
        cases hs
        obtain ⟨hinv, hnot⟩ := hfalse rfl
        have hinv' : Inv [req] s₃ := by
          apply takeUp_inv [req] hone _ h₃
          apply hinv.perm (List.perm_append_singleton req _).symm
        rw [if_neg (by simp)]
        apply hinv'.endReq
        intro _
        rw [takeUp_promised h₃]
        apply hnot
  · cases hs

/-- The data of a request has been read. -/
theorem dataDone_inv (h : Inv [] s) (hs : s.dataDone req = .ok s') :
  Inv [] s'
  := by
  obtain ⟨_, hmem, hs⟩ := bind_eq_ok.mp hs
  rw [require_eq_ok] at hmem
  cases hs
  have hcount : ∀ r, ({ s.endReq req .data with
      dataReading := s.dataReading.erase req } : Reads).places.count r = s.places.count r := by
    intro r
    have hperm := (List.perm_cons_erase hmem).count_eq r
    rw [count_places, count_places, hperm]
    simp only [Reads.endReq, List.map_append, List.count_append, List.map_cons, List.map_nil,
      List.count_cons, List.count_nil]
    omega
  refine { h with atMost := ?_, atLeast := ?_, found := ?_ }
  · intro r
    rw [hcount]
    apply h.atMost r
  · intro r hr
    rw [hcount]
    apply h.atLeast r hr
  · intro r hr
    change (r, EndType.notFound) ∈ s.ends ++ [(req, .data)] at hr
    rw [List.mem_append, List.mem_singleton] at hr
    apply h.found r
    apply hr.resolve_right
    simp

/-- The operations of a compaction keep the requests and the present pages, and make the
pages of the updated lbas present. -/
theorem compaction_calm {ops : List CacheLayer.Op} :
  ∀ {c c' : CacheLayer}, ops.all isCompaction = true → run (CacheLayer.apply g) c ops = .ok c' →
    Calm c c' ∧ ∀ lbaSet orders, .scUpdate lbaSet orders ∈ ops → ∀ lba ∈ lbaSet,
      c.pcs.scPinning = true ∨ PresentIn c'.pcs.cachedSc (lba / ridxinpage)
  := by
  induction ops with
  | nil =>
      intro c c' _ hs
      cases hs
      use .refl c, by simp
  | cons op ops ih =>
      intro c c' hall hs
      obtain ⟨c₁, h₁, hs⟩ := run_cons_eq_ok.mp hs
      rw [List.all_cons, Bool.and_eq_true] at hall
      obtain ⟨hop, hall⟩ := hall
      obtain ⟨hcalm, hl⟩ := ih hall hs
      have hrest : Calm c c₁ → ∀ lbaSet orders, .scUpdate lbaSet orders ∈ ops → ∀ lba ∈ lbaSet,
          c.pcs.scPinning = true ∨ PresentIn c'.pcs.cachedSc (lba / ridxinpage) := by
        intro hc lbaSet orders hmem lba hlba
        rw [← hc.same.pinning]
        apply hl lbaSet orders hmem lba hlba
      cases op with
      | scUpdate lbaSet orders =>
          obtain ⟨hc, hpres⟩ := scUpdate_calm h₁
          use hc.trans hcalm
          intro lbaSet' orders' hmem lba hlba
          obtain heq | hmem := List.mem_cons.mp hmem
          · cases heq
            apply (hpres lba hlba).imp id (hcalm.present _)
          · apply hrest hc lbaSet' orders' hmem lba hlba
      | idxInsert pba size =>
          have hc : Calm c c₁ := idxInsert_calm h₁
          use hc.trans hcalm, by simpa using hrest hc
      | idxForceEvict pba =>
          have hc : Calm c c₁ := idxForceEvict_calm h₁
          use hc.trans hcalm, by simpa using hrest hc
      | scRead lba req => cases hop
      | scRetry lba => cases hop
      | idxRead pba size req => cases hop
      | idxRetry pba size => cases hop
      | getPendingReq type id => cases hop

/-- Every event keeps the invariant. -/
theorem step_inv {op : Op} (h : Inv [] s) (htree : TreeKept s op) (hroom : HasRoom s op)
    (hs : s.step g op = .ok s') :
  Inv [] s'
  := by
  cases op with
  | read req lba => apply read_inv h hroom hs
  | retry req => apply retry_inv h hs
  | dataDone req => apply dataDone_inv h hs
  | write lba tree =>
      obtain ⟨hcorrect, hmem⟩ := htree
      cases hs
      refine { h with correct := hcorrect, written := ?_, present := ?_ }
      · intro r hr
        dsimp only
        by_cases hk : s.key r = lba
        · rw [hk, Function.update_self]
        · rw [Function.update_of_ne hk]
          apply h.written r hr
      · intro l hw hm
        obtain ⟨hne, hm⟩ := hmem l hm
        dsimp only at hw
        rw [Function.update_of_ne hne] at hw
        apply h.present l hw hm
  | compaction ops tree =>
      obtain ⟨hcorrect, hmem⟩ := htree
      obtain ⟨_, hall, hs⟩ := bind_eq_ok.mp hs
      obtain ⟨c, h₁, hs⟩ := bind_eq_ok.mp hs
      cases hs
      rw [require_eq_ok] at hall
      obtain ⟨hcalm, hl⟩ := compaction_calm hall h₁
      have hc := h.calm hcalm
      refine { hc with correct := hcorrect, present := ?_ }
      intro l hw hm
      obtain hm | ⟨lbaSet, orders, hop, hlba⟩ := hmem l hw hm
      · apply hc.present l hw hm
      · dsimp only
        rw [hcalm.same.pinning]
        apply hl lbaSet orders hop l hlba

theorem init_inv (maxCachedSize lbaNum : ℕ) (scPinning : Bool) (scSeg : ℕ) (tree : Tree) :
  Inv [] (init g maxCachedSize lbaNum scPinning scSeg tree)
  where
    nodup := List.nodup_nil
    atMost _ := le_rfl
    atLeast := by simp [init]
    scLed := by simp [init, CacheLayer.init, PcSet.init]
    idxLed := by simp [init, CacheLayer.init, PcSet.init]
    written := by simp [init]
    found := by simp [init]
    correct _ h := by cases h
    present _ h := by cases h

end Reads

end AppL
