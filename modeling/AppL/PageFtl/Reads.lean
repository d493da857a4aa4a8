import AppL.PageFtl.Mapping

/-!
# Reads that take time

A read that is sent to the device is answered when the device has finished it, and so are the reads
of the same page that wait for it.  Other operations may come in between.  No read is lost or
answered twice, and in a run in which no operation programs a page that is buffered or in flight,
every read gets the data that was last written when it was issued.
-/

namespace AppL

open Transition

namespace PageFtl

variable {δ : Type} {g : Geometry}

/-- The reads that `page_end_req` of page `ppa` ends, with their data: those that wait for the page
(`processing_pending_req`), and then the one that was sent to the device. -/
def endAnswers (s : PageFtl δ) (ppa : ℕ) : List (ReadReq × Option δ) :=
  match s.rb.issueReq.find? (fun x => x.1.ppa / l2pgap = ppa) with
  | some (r, some v) =>
      (s.rb.pendingReq.filter (fun r => r.ppa / l2pgap = ppa) ++ [r]).map
        fun r => (r, v (r.ppa % l2pgap))
  | _ => []

/-- The reads that have not been answered. -/
def waiting (s : PageFtl δ) : List ReadReq := s.rb.issueReq.map Prod.fst ++ s.rb.pendingReq

/-- The read of `key` that `page_read` leaves to the device: one that is sent to it, or waits for
one of the same page.  A read that is answered at once is none. -/
def leftToDevice (s : PageFtl δ) (key : ℕ) : List ReadReq :=
  match (pageRead s key).1, s.mapping key with
  | .issued, some q => [⟨key, q⟩]
  | .pending, some q => [⟨key, q⟩]
  | _, _ => []

/-- A device with its history: the number of operations, and the reads that have not been
answered, each with the number of operations before it. -/
structure Logged (δ : Type) where
  ftl : PageFtl δ
  time : ℕ
  reads : List (ℕ × ReadReq)

/-- The reads that wait after an operation: one that is left to the device is added under its own
number, and those of a page that the device has finished are gone. -/
def logRead (x : Logged δ) : Op δ → List (ℕ × ReadReq)
  | .read key => x.reads ++ (leftToDevice x.ftl key).map fun r => (x.time, r)
  | .endReq ppa => x.reads.filter fun y => y.2.ppa / l2pgap ≠ ppa
  | _ => x.reads

/-- A step of the device, with its history. -/
def loggedStep (g : Geometry) (x : Logged δ) (op : Op δ) : Except Abort (Logged δ) := do
  let s ← PageFtl.step g x.ftl op
  return ⟨s, x.time + 1, logRead x op⟩

/-- The read was issued in the history under its number, and its piece has the data that was last
written then, both in flash and in what the device has read. -/
def Issued (ops : List (Op δ)) (s : PageFtl δ) (y : ℕ × ReadReq) : Prop :=
  ops[y.1]? = some (.read y.2.key) ∧
    (∀ v, s.flash (y.2.ppa / l2pgap) = some v →
      v (y.2.ppa % l2pgap) = lastWritten (ops.take y.1) y.2.key) ∧
    ∀ x ∈ s.rb.issueReq, x.1.ppa / l2pgap = y.2.ppa / l2pgap →
      ∀ c, x.2 = some c → c (y.2.ppa % l2pgap) = lastWritten (ops.take y.1) y.2.key

/-- The device has one read of every page that reads wait for. -/
structure Tracked (s : PageFtl δ) : Prop where
  nodup : (s.rb.issueReq.map fun x => x.1.ppa / l2pgap).Nodup
  inFlight : ∀ r ∈ s.rb.pendingReq, ∃ x ∈ s.rb.issueReq, x.1.ppa / l2pgap = r.ppa / l2pgap

variable {ops : List (Op δ)} {s s' : PageFtl δ} {op : Op δ}

/-! ### Requests -/

/-- The device has a read of the page of every read that waits. -/
theorem Tracked.page (h : Tracked s) {r : ReadReq} (hr : r ∈ s.waiting) :
  ∃ x ∈ s.rb.issueReq, x.1.ppa / l2pgap = r.ppa / l2pgap
  := by
  rcases List.mem_append.mp hr with hr | hr
  · obtain ⟨x, hx, rfl⟩ := List.mem_map.mp hr
    exact ⟨x, hx, rfl⟩
  · apply h.inFlight r hr

theorem Tracked.congr (h : Tracked s) (hrb : s'.rb = s.rb) :
  Tracked s'
  := ⟨hrb ▸ h.nodup, hrb ▸ h.inFlight⟩

theorem Tracked.pageRead (h : Tracked s) (key : ℕ) :
  Tracked (PageFtl.pageRead s key).2
  := by
  unfold PageFtl.pageRead
  split
  · apply h
  · split
    · apply h
    · rename_i q _
      split
      · apply h
      · split
        · rename_i hany
          obtain ⟨x, hx, hp⟩ := List.any_eq_true.mp hany
          use h.nodup
          intro r hr
          rcases List.mem_append.mp hr with hr | hr
          · apply h.inFlight r hr
          · rw [List.mem_singleton.mp hr]
            use x, hx, of_decide_eq_true hp
        · rename_i hany
          constructor
          · rw [List.map_append, List.nodup_append]
            use h.nodup, List.nodup_singleton _
            rintro _ hp _ hq rfl
            obtain ⟨x, hx, heq⟩ := List.mem_map.mp hp
            rw [List.map_singleton, List.mem_singleton] at hq
            apply hany (List.any_eq_true.mpr ⟨x, hx, decide_eq_true (heq.trans hq)⟩)
          · intro r hr
            obtain ⟨x, hx, hp⟩ := h.inFlight r hr
            use x, List.mem_append.mpr (.inl hx), hp

/-- The requests of the device after it has read a page. -/
theorem serve_requests (l : List (ReadReq × Option (Page δ))) (ppa : ℕ) (v : Page δ) :
  (l.map fun x => if x.1.ppa / l2pgap = ppa then (x.1, some v) else x).map Prod.fst
    = l.map Prod.fst
  := by
  rw [List.map_map]
  apply List.map_congr_left
  intro x _
  dsimp only [Function.comp_apply]
  split
  · rfl
  · rfl

theorem Tracked.serve {ppa : ℕ} (h : Tracked s) (hs : PageFtl.serve s ppa = .ok s') :
  Tracked s'
  := by
  simp only [PageFtl.serve, bind_eq_ok, orThrow_eq_ok] at hs
  obtain ⟨v, -, hret⟩ := hs
  cases hret
  have hfst := serve_requests s.rb.issueReq ppa v
  constructor
  · have hpages : ∀ l : List (ReadReq × Option (Page δ)), (l.map fun x => x.1.ppa / l2pgap)
        = (l.map Prod.fst).map fun r => r.ppa / l2pgap := by
      intro l
      rw [List.map_map]
      rfl
    rw [hpages, hfst, ← hpages]
    apply h.nodup
  · intro r hr
    obtain ⟨x, hx, hp⟩ := h.inFlight r hr
    refine ⟨_, List.mem_map_of_mem hx, ?_⟩
    split
    · apply hp
    · apply hp

theorem Tracked.pageEndReq {ppa : ℕ} (h : Tracked s) (hs : PageFtl.pageEndReq s ppa = .ok s') :
  Tracked s'
  := by
  simp only [PageFtl.pageEndReq, bind_eq_ok] at hs
  obtain ⟨x, -, v, -, hret⟩ := hs
  cases hret
  use h.nodup.sublist (List.filter_sublist.map _)
  intro r hr
  obtain ⟨hr, hne⟩ := List.mem_filter.mp hr
  obtain ⟨x, hx, hp⟩ := h.inFlight r hr
  use x, List.mem_filter.mpr ⟨hx, by rw [hp]; exact hne⟩, hp

theorem Tracked.step (h : Tracked s) (hm : Mapped g ops s)
    (hs : PageFtl.step g s op = .ok s') :
  Tracked s'
  := by
  cases op with
  | write key data target order =>
      obtain ⟨f, -, -, -, -, -, hrb, -⟩ := pageWrite_ok hm.segments hm.consistent hm.buffered hs
      apply h.congr hrb
  | read key =>
      cases hs
      apply h.pageRead key
  | serve ppa => apply h.serve hs
  | endReq ppa => apply h.pageEndReq hs
  | remove key =>
      cases hs
      apply h

theorem tracked_create (h : create g = .ok s) :
  Tracked s
  := by
  simp only [create, bind_eq_ok] at h
  obtain ⟨x, -, y, -, hret⟩ := h
  cases hret
  use .nil, List.forall_mem_nil _

theorem tracked_run {s₀ : PageFtl δ} (h₀ : create g = .ok s₀)
    (h : run (PageFtl.step g) s₀ ops = .ok s) :
  Tracked s
  := by
  refine (run_history (fun l t => Tracked t ∧ Mapped g l t) ?_
    ⟨tracked_create h₀, mapped_create h₀⟩ h).1
  rintro l t op t' ⟨ht, hm⟩ hstep
  exact ⟨ht.step hm hstep, hm.step hstep⟩

/-- The requests of the device for a page, when there is one, and those for other pages. -/
theorem filter_page {l : List (ReadReq × Option (Page δ))} {ppa : ℕ}
    {x : ReadReq × Option (Page δ)}
    (hnodup : (l.map fun x => x.1.ppa / l2pgap).Nodup)
    (hfind : l.find? (fun x => x.1.ppa / l2pgap = ppa) = some x) :
  l.Perm (x :: l.filter fun x => x.1.ppa / l2pgap ≠ ppa)
  := by
  induction l with
  | nil => cases hfind
  | cons y l ih =>
      rw [List.map_cons, List.nodup_cons] at hnodup
      by_cases hy : y.1.ppa / l2pgap = ppa
      · rw [List.find?_cons_of_pos (by simp [hy])] at hfind
        cases hfind
        rw [List.filter_cons_of_neg (by simp [hy]), List.filter_eq_self.mpr]
        intro z hz
        refine decide_eq_true ?_
        rintro hp
        apply hnodup.1 (List.mem_map.mpr ⟨z, hz, hp.trans hy.symm⟩)
      · rw [List.find?_cons_of_neg (by simp [hy])] at hfind
        rw [List.filter_cons_of_pos (by simp [hy])]
        exact ((ih hnodup.2 hfind).cons y).trans (.swap _ _ _)

/-- In every run `page_end_req` answers the reads of its page, each once, and leaves the others, and
the device has a read of the page of every read that is left. -/
theorem reads_answeredOnce (g : Geometry) (s₀ s s' : PageFtl δ) (ops : List (Op δ)) (ppa : ℕ)
    (h₀ : create g = .ok s₀) (h : run (PageFtl.step g) s₀ ops = .ok s)
    (hend : PageFtl.step g s (.endReq ppa) = .ok s') :
  s.waiting.Perm ((endAnswers s ppa).map Prod.fst ++ s'.waiting) ∧
    ∀ r ∈ s'.waiting, ∃ x ∈ s'.rb.issueReq, x.1.ppa / l2pgap = r.ppa / l2pgap
  := by
  have ht := tracked_run h₀ h
  refine ⟨?_, fun r hr => (ht.pageEndReq hend).page hr⟩
  simp only [PageFtl.step, PageFtl.pageEndReq, bind_eq_ok, orThrow_eq_ok] at hend
  obtain ⟨⟨r, w⟩, hfind, v, rfl, hret⟩ := hend
  cases hret
  have hissue := (filter_page ht.nodup hfind).map Prod.fst
  have hpending := List.filter_append_perm (fun r : ReadReq => r.ppa / l2pgap = ppa)
    s.rb.pendingReq
  have hfst : (endAnswers s ppa).map Prod.fst
      = s.rb.pendingReq.filter (fun r => r.ppa / l2pgap = ppa) ++ [r] := by
    rw [endAnswers, hfind, List.map_map]
    apply List.map_id _
  rw [hfst]
  dsimp only [waiting]
  rw [List.perm_iff_count] at hissue hpending ⊢
  intro a
  have hi := hissue a
  have hp := hpending a
  simp only [List.count_append, List.map_cons, List.count_cons, List.count_nil, ne_eq,
    decide_not] at hi hp ⊢
  omega

/-- Two reads of one page are issued before an lba of the page is written again. -/
def readsBetween : List (Op ℕ) :=
  writeFour 10 0 ++ [.read 0, .read 1, .serve 1, .write 1 20 0 []]

theorem reads_answeredOnce_readsBetween :
  ∃ s₀ s s', create tinyGeometry = .ok s₀ ∧
    run (PageFtl.step tinyGeometry) s₀ readsBetween = .ok s ∧
    PageFtl.step tinyGeometry s (.endReq 1) = .ok s' ∧
    (s.waiting, s'.waiting) = ([⟨0, 4⟩, ⟨1, 5⟩], []) ∧
    s.waiting.Perm ((endAnswers s 1).map Prod.fst ++ s'.waiting)
  := by
  obtain ⟨s₀, h₀⟩ : ∃ s₀, create (δ := ℕ) tinyGeometry = .ok s₀ := ⟨_, rfl⟩
  obtain ⟨s, h⟩ : ∃ s, run (PageFtl.step tinyGeometry) s₀ readsBetween = .ok s := by
    cases h₀
    exact ⟨_, rfl⟩
  obtain ⟨s', hend⟩ : ∃ s', PageFtl.step tinyGeometry s (.endReq 1) = .ok s' := by
    cases h₀
    cases h
    exact ⟨_, rfl⟩
  refine ⟨s₀, s, s', h₀, h, hend, ?_,
    (reads_answeredOnce tinyGeometry s₀ s s' readsBetween 1 h₀ h hend).1⟩
  cases h₀
  cases h
  cases hend
  decide

/-! ### Reads with their numbers -/

variable {reads : List (ℕ × ReadReq)} {t : ℕ}

/-- A read is answered at once and leaves no trace, or it is left to the device. -/
theorem pageRead_leaves (s : PageFtl δ) (key : ℕ) :
  (leftToDevice s key = [] ∧ (pageRead s key).2 = s) ∨
    ∃ q, s.aBuffer.find? (fun x => x.1 = key) = none ∧ s.mapping key = some q ∧
      leftToDevice s key = [⟨key, q⟩] ∧
      ((pageRead s key).2 =
          { s with rb := { s.rb with pendingReq := s.rb.pendingReq ++ [⟨key, q⟩] } } ∨
        (pageRead s key).2 =
          { s with rb := { s.rb with issueReq := s.rb.issueReq ++ [(⟨key, q⟩, none)] } })
  := by
  unfold leftToDevice PageFtl.pageRead
  cases hfind : s.aBuffer.find? (fun x => x.1 = key) with
  | some x =>
      left
      constructor
      · rfl
      · rfl
  | none =>
      cases hq : s.mapping key with
      | none =>
          left
          constructor
          · rfl
          · rfl
      | some q =>
          dsimp only
          split_ifs
          · left
            constructor
            · rfl
            · rfl
          · right
            use q, rfl, rfl, rfl, .inl rfl
          · right
            use q, rfl, rfl, rfl, .inr rfl

/-- A step of the device that does not concern the requests. -/
theorem waiting_congr (hrb : s'.rb = s.rb) :
  s'.waiting = s.waiting
  := by
  rw [waiting, waiting, hrb]

theorem waiting_serve {ppa : ℕ} (hs : PageFtl.serve s ppa = .ok s') :
  s'.waiting = s.waiting
  := by
  simp only [PageFtl.serve, bind_eq_ok, orThrow_eq_ok] at hs
  obtain ⟨v, -, hret⟩ := hs
  cases hret
  rw [waiting, waiting, serve_requests]

theorem waiting_pageEndReq {ppa : ℕ} (hs : PageFtl.pageEndReq s ppa = .ok s') :
  s'.waiting = s.waiting.filter fun r => r.ppa / l2pgap ≠ ppa
  := by
  simp only [PageFtl.pageEndReq, bind_eq_ok] at hs
  obtain ⟨x, -, v, -, hret⟩ := hs
  cases hret
  rw [waiting, waiting, List.filter_append, List.filter_map]
  rfl

theorem waiting_pageRead (s : PageFtl δ) (key : ℕ) :
  (s.waiting ++ leftToDevice s key).Perm (pageRead s key).2.waiting
  := by
  rcases pageRead_leaves s key with ⟨hnil, hs⟩ | ⟨q, -, -, hleft, hs | hs⟩
  · rw [hnil, hs, List.append_nil]
  · rw [hleft, hs, waiting, waiting, List.append_assoc]
  · rw [hleft, hs, waiting, waiting, List.map_append, List.append_assoc, List.append_assoc]
    apply List.Perm.append_left
    apply List.perm_append_comm

/-- The numbered reads are those that wait, each with a number of its own. -/
structure Numbered (x : Logged δ) : Prop where
  perm : (x.reads.map Prod.snd).Perm x.ftl.waiting
  asc : x.reads.Pairwise fun y z => y.1 < z.1
  lt : ∀ y ∈ x.reads, y.1 < x.time

/-- The reads that wait stay the same. -/
theorem Numbered.same {x : Logged δ} (h : Numbered x) (hw : s'.waiting = x.ftl.waiting) :
  Numbered ⟨s', x.time + 1, x.reads⟩
  where
    perm := hw ▸ h.perm
    asc := h.asc
    lt y hy := Nat.lt_succ_of_lt (h.lt y hy)

theorem Numbered.pageRead {x : Logged δ} (h : Numbered x) (key : ℕ) :
  Numbered ⟨(PageFtl.pageRead x.ftl key).2, x.time + 1, logRead x (.read key)⟩
  := by
  have hnew : ∀ y ∈ (leftToDevice x.ftl key).map fun r => (x.time, r), y.1 = x.time := by
    intro y hy
    obtain ⟨r, -, rfl⟩ := List.mem_map.mp hy
    rfl
  constructor
  · have hsnd : ((leftToDevice x.ftl key).map fun r => (x.time, r)).map Prod.snd
        = leftToDevice x.ftl key := by
      rw [List.map_map]
      apply List.map_id
    rw [logRead, List.map_append, hsnd]
    apply (h.perm.append_right _).trans (waiting_pageRead x.ftl key)
  · rw [logRead, List.pairwise_append]
    refine ⟨h.asc, ?_, ?_⟩
    · rcases pageRead_leaves x.ftl key with ⟨hnil, -⟩ | ⟨q, -, -, hleft, -⟩
      · rw [hnil]
        apply List.Pairwise.nil
      · rw [hleft]
        apply List.pairwise_singleton
    · intro y hy z hz
      rw [hnew z hz]
      apply h.lt y hy
  · intro y hy
    rcases List.mem_append.mp hy with hy | hy
    · apply Nat.lt_succ_of_lt (h.lt y hy)
    · rw [hnew y hy]
      apply Nat.lt_succ_self

theorem Numbered.pageEndReq {x : Logged δ} {ppa : ℕ} (h : Numbered x)
    (hs : PageFtl.pageEndReq x.ftl ppa = .ok s') :
  Numbered ⟨s', x.time + 1, logRead x (.endReq ppa)⟩
  := by
  constructor
  · rw [waiting_pageEndReq hs]
    have hfilter := h.perm.filter fun r => r.ppa / l2pgap ≠ ppa
    rw [List.filter_map] at hfilter
    apply hfilter
  · apply h.asc.filter
  · intro y hy
    apply Nat.lt_succ_of_lt (h.lt y (List.mem_of_mem_filter hy))

theorem Numbered.step {x x' : Logged δ} (h : Numbered x) (hm : Mapped g ops x.ftl)
    (hs : loggedStep g x op = .ok x') :
  Numbered x'
  := by
  simp only [loggedStep, bind_eq_ok] at hs
  obtain ⟨s', hs, hret⟩ := hs
  cases hret
  cases op with
  | write key data target order =>
      obtain ⟨f, -, -, -, -, -, hrb, -⟩ := pageWrite_ok hm.segments hm.consistent hm.buffered hs
      apply h.same (waiting_congr hrb)
  | read key =>
      cases hs
      apply h.pageRead
  | serve ppa => apply h.same (waiting_serve hs)
  | endReq ppa => apply h.pageEndReq hs
  | remove key =>
      cases hs
      apply h.same rfl

/-! ### Data -/

/-- Every read that waits was issued. -/
def Waiting (ops : List (Op δ)) (s : PageFtl δ) (reads : List (ℕ × ReadReq)) : Prop :=
  ∀ y ∈ reads, Issued ops s y

/-- A read stays issued as long as its page and what has been read of it stay the same. -/
theorem Issued.next {y : ℕ × ReadReq} (h : Issued ops s y)
    (hflash : ∀ v, s'.flash (y.2.ppa / l2pgap) = some v → s.flash (y.2.ppa / l2pgap) = some v)
    (hread : ∀ x ∈ s'.rb.issueReq, x.1.ppa / l2pgap = y.2.ppa / l2pgap → ∀ c, x.2 = some c →
      s.flash (y.2.ppa / l2pgap) = some c ∨
        ∃ z ∈ s.rb.issueReq, z.1.ppa / l2pgap = y.2.ppa / l2pgap ∧ z.2 = some c) :
  Issued (ops ++ [op]) s' y
  := by
  obtain ⟨hop, hf, hc⟩ := h
  have hlt : y.1 < ops.length := (List.getElem?_eq_some_iff.mp hop).1
  have htake : (ops ++ [op]).take y.1 = ops.take y.1 :=
    List.take_append_of_le_length (Nat.le_of_lt hlt)
  rw [Issued, htake, List.getElem?_append_left hlt]
  refine ⟨hop, ?_, ?_⟩
  · intro v hv
    apply hf v (hflash v hv)
  · intro x hx hp c hxc
    rcases hread x hx hp c hxc with hold | ⟨z, hz, hzp, hzc⟩
    · apply hf c hold
    · apply hc z hz hzp c hzc

/-- An operation that only drops requests. -/
theorem Waiting.drop (h : Waiting ops s reads) (hflash : s'.flash = s.flash)
    (hissue : ∀ x ∈ s'.rb.issueReq, x ∈ s.rb.issueReq) :
  Waiting (ops ++ [op]) s' reads
  := by
  intro y hy
  apply (h y hy).next
  · intro v hv
    rw [← hflash, hv]
  · intro x hx hp c hxc
    right
    use x, hissue x hx, hp, hxc

/-- A write that programs no page in flight. -/
theorem Waiting.pageWrite {key target : ℕ} {data : δ} {order : List ℕ} (h : Waiting ops s reads)
    (hwait : ∀ y ∈ reads, y.2 ∈ s.waiting) (ht : Tracked s)
    (hg : SparesBuffered g s (.write key data target order)) (hrb : s'.rb = s.rb)
    (hfl : ∀ p v, s'.flash p = some v → s.flash p ≠ some v →
      (align s.aBuffer key data).length = l2pgap ∧ p ∈ nextPages g s target) :
  Waiting (ops ++ [op]) s' reads
  := by
  intro y hy
  obtain ⟨x, hx, hp⟩ := ht.page (hwait y hy)
  apply (h y hy).next
  · intro v hv
    by_contra hold
    obtain ⟨hlen, hmem⟩ := hfl _ v hv hold
    apply (hg hlen _ hmem).2 x hx hp
  · intro z hz hzp c hzc
    right
    use z, hrb ▸ hz, hzp, hzc

/-- The device answers with the content of the page. -/
theorem Waiting.serve {ppa : ℕ} (h : Waiting ops s reads) (hs : PageFtl.serve s ppa = .ok s') :
  Waiting (ops ++ [op]) s' reads
  := by
  simp only [PageFtl.serve, bind_eq_ok, orThrow_eq_ok] at hs
  obtain ⟨v, hv, hret⟩ := hs
  cases hret
  intro y hy
  apply (h y hy).next
  · intro v hv
    apply hv
  · intro x hx hp c hxc
    obtain ⟨z, hz, rfl⟩ := List.mem_map.mp hx
    split at hxc
    · rename_i hpage
      rw [if_pos hpage] at hp
      cases hxc
      left
      rw [← hp, hpage, hv]
    · rename_i hpage
      rw [if_neg hpage] at hp
      right
      use z, hz, hp, hxc

/-- The page of a completed read has no reads left. -/
theorem Waiting.pageEndReq {ppa : ℕ} (h : Waiting ops s reads)
    (hs : PageFtl.pageEndReq s ppa = .ok s') :
  Waiting (ops ++ [op]) s' (reads.filter fun y => y.2.ppa / l2pgap ≠ ppa)
  := by
  simp only [PageFtl.pageEndReq, bind_eq_ok] at hs
  obtain ⟨x, -, v, -, hret⟩ := hs
  cases hret
  have hall : Waiting ops s (reads.filter fun y => y.2.ppa / l2pgap ≠ ppa) := by
    intro y hy
    apply h y (List.mem_of_mem_filter hy)
  apply Waiting.drop hall
  · rfl
  · intro x hx
    apply List.mem_of_mem_filter hx

/-- A read that is sent to the device, or waits for one that was, finds its data there. -/
theorem Inv.issue {key q : ℕ} (h : Inv g ops s) (hkey : key ∉ s.aBuffer.map Prod.fst)
    (hq : s.mapping key = some q) (hflash : s'.flash = s.flash)
    (hissue : ∀ x ∈ s'.rb.issueReq, ∀ c, x.2 = some c → x ∈ s.rb.issueReq) :
  Issued (ops ++ [.read key]) s' (ops.length, ⟨key, q⟩)
  := by
  obtain ⟨f, -, hcon, hbuf, hcoh⟩ := h
  obtain ⟨-, -, v, hv, hdata, -⟩ := hcon.mapped key q hq
  have hlast : v (q % l2pgap) = lastWritten ops key := by rw [hdata, hbuf.rest key hkey]
  rw [Issued, List.take_left, List.getElem?_append_right (Nat.le_refl _), Nat.sub_self]
  refine ⟨rfl, ?_, ?_⟩
  · intro c hc
    rw [hflash, hv] at hc
    rw [← Option.some.inj hc]
    apply hlast
  · intro x hx hp c hxc
    rw [← hcoh.issued x (hissue x hx c hxc) c v hxc (hp ▸ hv)]
    apply hlast

/-- A read that the align buffer does not answer. -/
theorem not_mem_aBuffer {key : ℕ} (h : s.aBuffer.find? (fun x => x.1 = key) = none) :
  key ∉ s.aBuffer.map Prod.fst
  := by
  intro hm
  obtain ⟨x, hx, rfl⟩ := List.mem_map.mp hm
  rw [List.find?_eq_none] at h
  apply h x hx (decide_eq_true rfl)

theorem Waiting.pageRead {key : ℕ} (h : Waiting ops s reads) (hI : Inv g ops s) :
  Waiting (ops ++ [.read key]) (PageFtl.pageRead s key).2
    (reads ++ (leftToDevice s key).map fun r => (ops.length, r))
  := by
  have hboth : ∀ s' : PageFtl δ, s'.flash = s.flash →
      (∀ x ∈ s'.rb.issueReq, ∀ c, x.2 = some c → x ∈ s.rb.issueReq) →
      (∀ r ∈ leftToDevice s key, ∃ q, r = ⟨key, q⟩ ∧ key ∉ s.aBuffer.map Prod.fst ∧
        s.mapping key = some q) →
      Waiting (ops ++ [.read key]) s'
        (reads ++ (leftToDevice s key).map fun r => (ops.length, r)) := by
    intro s' hflash hissue hleft y hy
    rcases List.mem_append.mp hy with hy | hy
    · apply (h y hy).next
      · intro v hv
        rw [← hflash, hv]
      · intro x hx hp c hxc
        right
        use x, hissue x hx c hxc, hp, hxc
    · obtain ⟨r, hr, rfl⟩ := List.mem_map.mp hy
      obtain ⟨q, rfl, hkey, hq⟩ := hleft r hr
      apply hI.issue hkey hq hflash hissue
  rcases pageRead_leaves s key with ⟨hnil, hs⟩ | ⟨q, hfind, hq, hleft, hs⟩
  · rw [hs]
    apply hboth
    · rfl
    · intro x hx _ _
      apply hx
    · rw [hnil]
      apply List.forall_mem_nil
  · have hone : ∀ r ∈ leftToDevice s key, ∃ q, r = ⟨key, q⟩ ∧ key ∉ s.aBuffer.map Prod.fst ∧
        s.mapping key = some q := by
      intro r hr
      rw [hleft] at hr
      use q, List.mem_singleton.mp hr, not_mem_aBuffer hfind, hq
    rcases hs with hs | hs
    · rw [hs]
      apply hboth _ _ _ hone
      · rfl
      · intro x hx _ _
        apply hx
    · rw [hs]
      apply hboth _ _ _ hone
      · rfl
      · intro x hx c hxc
        rcases List.mem_append.mp hx with hx | hx
        · apply hx
        · rw [List.mem_singleton.mp hx] at hxc
          cases hxc

/-- Every operation that spares the pages in flight leaves the reads that wait their data. -/
theorem Waiting.step {x x' : Logged δ} (h : Waiting ops x.ftl x.reads) (hn : Numbered x)
    (htime : x.time = ops.length) (ht : Tracked x.ftl) (hI : Inv g ops x.ftl)
    (hg : SparesBuffered g x.ftl op) (hs : loggedStep g x op = .ok x') :
  Waiting (ops ++ [op]) x'.ftl x'.reads
  := by
  simp only [loggedStep, bind_eq_ok] at hs
  obtain ⟨s', hs, hret⟩ := hs
  cases hret
  cases op with
  | write key data target order =>
      obtain ⟨f, hseg, hcon, hbuf, -⟩ := hI
      obtain ⟨f', -, -, -, -, -, hrb, hfl⟩ := pageWrite_ok hseg hcon hbuf hs
      apply h.pageWrite _ ht hg hrb hfl
      intro y hy
      apply hn.perm.mem_iff.mp (List.mem_map_of_mem hy)
  | read key =>
      cases hs
      dsimp only [logRead]
      rw [htime]
      apply h.pageRead hI
  | serve ppa => apply h.serve hs
  | endReq ppa => apply h.pageEndReq hs
  | remove key =>
      cases hs
      apply h.drop rfl
      intro x hx
      apply hx

/-- What is known of a device with its history. -/
structure WellLogged (g : Geometry) (ops : List (Op δ)) (x : Logged δ) : Prop where
  time : x.time = ops.length
  numbered : Numbered x
  waiting : Waiting ops x.ftl x.reads
  inv : Inv g ops x.ftl
  mapped : Mapped g ops x.ftl
  tracked : Tracked x.ftl

theorem WellLogged.step {x x' : Logged δ} (h : WellLogged g ops x)
    (hg : SparesBuffered g x.ftl op) (hs : loggedStep g x op = .ok x') :
  WellLogged g (ops ++ [op]) x'
  := by
  have hnumbered := h.numbered.step h.mapped hs
  have hwaiting := h.waiting.step h.numbered h.time h.tracked h.inv hg hs
  simp only [loggedStep, bind_eq_ok] at hs
  obtain ⟨s', hs, hret⟩ := hs
  cases hret
  constructor
  · rw [List.length_append, List.length_singleton, ← h.time]
  · apply hnumbered
  · apply hwaiting
  · apply h.inv.step hg hs
  · apply h.mapped.step hs
  · apply h.tracked.step h.mapped hs

theorem wellLogged_create (h : create g = .ok s) :
  WellLogged g [] ⟨s, 0, []⟩
  := by
  have hempty : s.waiting = [] := by
    simp only [create, bind_eq_ok] at h
    obtain ⟨x, -, y, -, hret⟩ := h
    cases hret
    rfl
  constructor
  · rfl
  · constructor
    · rw [hempty]
      apply List.Perm.refl
    · apply List.Pairwise.nil
    · apply List.forall_mem_nil
  · apply List.forall_mem_nil
  · apply inv_create h
  · apply mapped_create h
  · apply tracked_create h

/-- The run lemma: every run of the device is one with its history. -/
theorem WellLogged.run {x : Logged δ} {hist : List (Op δ)} (h : WellLogged g hist x)
    (hg : Guarded (PageFtl.step g) (SparesBuffered g) x.ftl ops)
    (hrun : Transition.run (PageFtl.step g) x.ftl ops = .ok s) :
  ∃ x', Transition.run (loggedStep g) x ops = .ok x' ∧ x'.ftl = s ∧
    WellLogged g (hist ++ ops) x'
  := by
  induction ops generalizing x hist with
  | nil =>
      cases hrun
      rw [List.append_nil]
      exact ⟨x, rfl, rfl, h⟩
  | cons op ops ih =>
      obtain ⟨s', hs, hrest⟩ := run_cons_eq_ok.mp hrun
      simp only [Guarded, hs] at hg
      have hstep : loggedStep g x op = .ok ⟨s', x.time + 1, logRead x op⟩ := by
        rw [loggedStep, hs]
        rfl
      have hnext := h.step hg.1 hstep
      obtain ⟨x', hrun', hftl, hwell⟩ := ih hnext hg.2 hrest
      rw [List.append_assoc, List.singleton_append] at hwell
      exact ⟨x', run_cons_eq_ok.mpr ⟨_, hstep, hrun'⟩, hftl, hwell⟩

/-- An answer that is given at once has the data `w`. -/
def Answer.Gives (w : Option δ) : Answer δ → Prop
  | .aligned v => w = some v
  | .notFound => w = none
  | .bufferHit v => w = v
  | .issued => True
  | .pending => True

/-- A read that is answered at once gets the data that was last written. -/
theorem Inv.gives (h : Inv g ops s) (key : ℕ) :
  (PageFtl.pageRead s key).1.Gives (lastWritten ops key)
  := by
  obtain ⟨f, -, hcon, hbuf, hcoh⟩ := h
  unfold PageFtl.pageRead
  split
  · rename_i x hfind
    have hx := hbuf.mem x (List.mem_of_find?_eq_some hfind)
    have hkey : x.1 = key := by simpa using List.find?_some hfind
    rw [hkey] at hx
    apply hx
  · rename_i hfind
    have hkey := not_mem_aBuffer hfind
    split
    · rename_i hnone
      apply (hbuf.rest key hkey).trans (hcon.unmapped key hnone)
    · rename_i q hq
      obtain ⟨-, -, v, hv, hdata, -⟩ := hcon.mapped key q hq
      split
      · rename_i hp
        rw [← hcoh.buffer _ v hp hv]
        apply (hbuf.rest key hkey).trans hdata.symm
      · split
        · trivial
        · trivial

/-- The device has one request of the page that it has finished. -/
theorem waiting_filter_page {ppa : ℕ} {r : ReadReq} {w : Option (Page δ)} (ht : Tracked s)
    (hfind : s.rb.issueReq.find? (fun x => x.1.ppa / l2pgap = ppa) = some (r, w)) :
  (s.waiting.filter fun r => r.ppa / l2pgap = ppa).Perm
    (s.rb.pendingReq.filter (fun r => r.ppa / l2pgap = ppa) ++ [r])
  := by
  have hpage : r.ppa / l2pgap = ppa := by simpa using List.find?_some hfind
  have hissue := ((filter_page ht.nodup hfind).map Prod.fst).filter
    fun r => r.ppa / l2pgap = ppa
  have hone : (((r, w) :: s.rb.issueReq.filter fun x => x.1.ppa / l2pgap ≠ ppa).map
      Prod.fst).filter (fun r => r.ppa / l2pgap = ppa) = [r] := by
    rw [List.map_cons, List.filter_cons_of_pos (by simpa using hpage), List.filter_map,
      List.filter_filter]
    simp
  rw [hone] at hissue
  rw [waiting, List.filter_append]
  apply (hissue.append_right _).trans
  apply List.perm_append_comm

/-- The reads that the device has finished get the data last written when they were issued. -/
theorem WellLogged.endAnswers {x : Logged δ} {ppa : ℕ} (h : WellLogged g ops x)
    (hend : PageFtl.pageEndReq x.ftl ppa = .ok s') :
  (PageFtl.endAnswers x.ftl ppa).Perm ((x.reads.filter fun y => y.2.ppa / l2pgap = ppa).map
    fun y => (y.2, lastWritten (ops.take y.1) y.2.key))
  := by
  simp only [PageFtl.pageEndReq, bind_eq_ok, orThrow_eq_ok] at hend
  obtain ⟨⟨r, w⟩, hfind, v, rfl, -⟩ := hend
  have hmem := List.mem_of_find?_eq_some hfind
  have hpage : r.ppa / l2pgap = ppa := by simpa using List.find?_some hfind
  have hdata : (x.reads.filter fun y => y.2.ppa / l2pgap = ppa).map
        (fun y => (y.2, lastWritten (ops.take y.1) y.2.key))
      = ((x.reads.filter fun y => y.2.ppa / l2pgap = ppa).map Prod.snd).map
        fun r => (r, v (r.ppa % l2pgap)) := by
    rw [List.map_map]
    apply List.map_congr_left
    intro y hy
    obtain ⟨hy, hp⟩ := List.mem_filter.mp hy
    obtain ⟨-, -, hread⟩ := h.waiting y hy
    rw [Function.comp_apply, hread _ hmem (hpage.trans (of_decide_eq_true hp).symm) v rfl]
  have hperm := h.numbered.perm.filter fun r => r.ppa / l2pgap = ppa
  rw [List.filter_map] at hperm
  have hwait := hperm.trans (waiting_filter_page h.tracked hfind)
  rw [hdata, PageFtl.endAnswers, hfind]
  apply List.Perm.map
  apply hwait.symm

/-- In every run in which no operation programs the page in the read buffer or a page whose read is
in flight, every read gets the data that was last written when it was issued: one that is answered
at once; and every one that waits, under its own number, when the device has finished its page. -/
theorem reads_latest (g : Geometry) (s₀ s : PageFtl δ) (ops : List (Op δ)) (h₀ : create g = .ok s₀)
    (hg : Guarded (PageFtl.step g) (SparesBuffered g) s₀ ops)
    (h : run (PageFtl.step g) s₀ ops = .ok s) :
  (∀ key, (pageRead s key).1.Gives (lastWritten ops key)) ∧
    ∃ reads, run (loggedStep g) ⟨s₀, 0, []⟩ ops = .ok ⟨s, ops.length, reads⟩ ∧
      (reads.map Prod.snd).Perm s.waiting ∧
      (reads.Pairwise fun y z => y.1 < z.1) ∧
      (∀ y ∈ reads, ops[y.1]? = some (.read y.2.key)) ∧
      ∀ ppa s', PageFtl.step g s (.endReq ppa) = .ok s' →
        (endAnswers s ppa).Perm ((reads.filter fun y => y.2.ppa / l2pgap = ppa).map
          fun y => (y.2, lastWritten (ops.take y.1) y.2.key))
  := by
  obtain ⟨⟨s', t, reads⟩, hrun, rfl, hwell⟩ := (wellLogged_create h₀).run hg h
  rw [List.nil_append] at hwell
  obtain rfl : t = ops.length := hwell.time
  constructor
  · apply hwell.inv.gives
  · use reads, hrun
    refine ⟨hwell.numbered.perm, hwell.numbered.asc, ?_, ?_⟩
    · intro y hy
      apply (hwell.waiting y hy).1
    · intro ppa s' hend
      apply hwell.endAnswers hend

theorem reads_latest_readsBetween :
  ∃ s₀ s reads, create tinyGeometry = .ok s₀ ∧
    run (loggedStep tinyGeometry) ⟨s₀, 0, []⟩ readsBetween
      = .ok ⟨s, readsBetween.length, reads⟩ ∧
    reads = [(4, ⟨0, 4⟩), (5, ⟨1, 5⟩)] ∧ (pageRead s 1).1 = .aligned 20 ∧
    (endAnswers s 1).Perm [(⟨0, 4⟩, some 10), (⟨1, 5⟩, some 10)]
  := by
  obtain ⟨s₀, h₀⟩ : ∃ s₀, create (δ := ℕ) tinyGeometry = .ok s₀ := ⟨_, rfl⟩
  obtain ⟨s, h⟩ : ∃ s, run (PageFtl.step tinyGeometry) s₀ readsBetween = .ok s := by
    cases h₀
    exact ⟨_, rfl⟩
  obtain ⟨s', hend⟩ : ∃ s', PageFtl.step tinyGeometry s (.endReq 1) = .ok s' := by
    cases h₀
    cases h
    exact ⟨_, rfl⟩
  have hg : Guarded (PageFtl.step tinyGeometry) (SparesBuffered tinyGeometry) s₀ readsBetween := by
    cases h₀
    decide
  obtain ⟨-, reads, hrun, -, -, -, hanswers⟩ := reads_latest tinyGeometry s₀ s readsBetween h₀ hg h
  have hreads : reads = [(4, ⟨0, 4⟩), (5, ⟨1, 5⟩)] := by
    cases h₀
    cases h
    cases hrun
    rfl
  use s₀, s, reads, h₀, hrun, hreads
  constructor
  · cases h₀
    cases h
    decide
  · have hperm := hanswers 1 s' hend
    rw [hreads] at hperm
    apply hperm

end PageFtl

end AppL
