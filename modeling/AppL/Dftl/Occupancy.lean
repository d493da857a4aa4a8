import Mathlib.Data.Set.Card
import AppL.Dftl.CoarseCache
import AppL.Lib.Reservation

/-!
# The occupancy of the coarse-grained cache

The pages of the LRU list are those that the cache counts, the global eviction hint is the sum
of the places that the requests have reserved, and both together never exceed the size of the
cache.
-/

namespace AppL

open Transition Reservation

namespace CoarseMap

/-! ### The books -/

/-- The places that a request has reserved. -/
def hintOf (reqs : ℕ → Option DemandParam) (seq : ℕ) : ℕ :=
  match reqs seq with
  | some dp => dp.nowEvictionHint
  | none => 0

/-- The LRU list, its counter and the reservations. -/
structure Books (s : CoarseMap) : Prop where
  lru_nodup : s.lru.Nodup
  mem_lru : ∀ gtdIdx, gtdIdx ∈ s.lru ↔ (s.gtd gtdIdx).privateData = true
  now : s.nowCachingPage = s.lru.length
  within : Within s.maxCachingPage s.nowCachingPage s.evictionHint s.allNowReq (hintOf s.reqs)
  mem_reqs : ∀ seq, seq ∈ s.allNowReq ↔ (s.reqs seq).isSome = true

variable {s : CoarseMap} {seq gtdIdx : ℕ} {dp dp' : DemandParam} {etr : GtdEntry}

theorem hintOf_update (reqs : ℕ → Option DemandParam) (seq : ℕ) (dp : DemandParam) :
  hintOf (Function.update reqs seq (some dp))
    = Function.update (hintOf reqs) seq dp.nowEvictionHint
  := by
  funext seq'
  unfold hintOf
  rcases eq_or_ne seq' seq with rfl | h
  · simp
  · simp [h]

theorem Books.mem (h : s.Books) (hdp : s.reqs seq = some dp) :
  seq ∈ s.allNowReq
  := by
  rw [h.mem_reqs, hdp]
  rfl

/-- A request is stored with another reservation. -/
theorem Books.setReq (h : s.Books) (hdp : s.reqs seq = some dp) (dp' : DemandParam)
    (evictionHint : ℤ) (heq : evictionHint = s.evictionHint + dp'.nowEvictionHint - dp.nowEvictionHint)
    (hle : s.nowCachingPage + evictionHint ≤ s.maxCachingPage) :
  Books { s.setReq seq dp' with evictionHint := evictionHint }
  where
    lru_nodup := h.lru_nodup
    mem_lru := h.mem_lru
    now := h.now
    within := by
      have hold : hintOf s.reqs seq = dp.nowEvictionHint := by simp [hintOf, hdp]
      have hw := h.within.change (h.mem hdp) (v := dp'.nowEvictionHint) (by rw [hold, heq]) hle
      rwa [← hintOf_update] at hw
    mem_reqs seq' := by
      rcases eq_or_ne seq' seq with rfl | hne
      · simpa [CoarseMap.setReq] using h.mem hdp
      · simpa [CoarseMap.setReq, hne] using h.mem_reqs seq'

/-- An entry of the directory changes, but not whether it is cached. -/
theorem Books.setGtd (h : s.Books) (gtdIdx : ℕ) (etr : GtdEntry)
    (hetr : etr.privateData = (s.gtd gtdIdx).privateData) :
  (s.setGtd gtdIdx etr).Books
  where
    lru_nodup := h.lru_nodup
    mem_lru g := by
      rcases eq_or_ne g gtdIdx with rfl | hg
      · simpa [CoarseMap.setGtd, hetr] using h.mem_lru g
      · simpa [CoarseMap.setGtd, hg] using h.mem_lru g
    now := h.now
    within := h.within
    mem_reqs := h.mem_reqs

/-- A page is cached. -/
theorem Books.lruPush (h : s.Books) (gtdIdx : ℕ) (hnew : (s.gtd gtdIdx).privateData = false)
    (hle : (s.nowCachingPage + 1 : ℕ) + s.evictionHint ≤ s.maxCachingPage) :
  (s.lruPush gtdIdx).Books
  where
    lru_nodup := by
      apply List.nodup_cons.mpr
      rw [h.mem_lru, hnew]
      use nofun, h.lru_nodup
    mem_lru g := by
      rcases eq_or_ne g gtdIdx with rfl | hg
      · simp [CoarseMap.lruPush, CoarseMap.setGtd]
      · simpa [CoarseMap.lruPush, CoarseMap.setGtd, hg] using h.mem_lru g
    now := by
      simp [CoarseMap.lruPush, h.now]
    within := h.within.use hle
    mem_reqs := h.mem_reqs

/-- A page is taken from the cache. -/
theorem Books.lruDelete (h : s.Books) (hold : (s.gtd gtdIdx).privateData = true) :
  (s.lruDelete gtdIdx).Books ∧ s.nowCachingPage = (s.lruDelete gtdIdx).nowCachingPage + 1
  := by
  have hmem := (h.mem_lru gtdIdx).mpr hold
  have hpos : 0 < s.nowCachingPage := by
    rw [h.now]
    apply List.length_pos_of_mem hmem
  have hnow : s.nowCachingPage = s.nowCachingPage - 1 + 1 := (Nat.sub_add_cancel hpos).symm
  refine ⟨⟨h.lru_nodup.erase _, ?_, ?_, ?_, h.mem_reqs⟩, hnow⟩
  · intro g
    rcases eq_or_ne g gtdIdx with rfl | hg
    · simpa [CoarseMap.lruDelete, CoarseMap.setGtd] using h.lru_nodup.not_mem_erase
    · simpa [CoarseMap.lruDelete, CoarseMap.setGtd, hg, List.mem_erase_of_ne hg] using h.mem_lru g
  · simp only [CoarseMap.lruDelete]
    rw [List.length_erase_of_mem hmem, h.now]
  · have hle := h.within.le
    apply h.within.use
    simp only [CoarseMap.lruDelete]
    omega

/-- The order of the LRU list changes. -/
theorem Books.reorder (h : s.Books) {lru : List ℕ} (hp : lru.Perm s.lru)
    (exactMapping : ℕ → ℕ) :
  Books { s with exactMapping := exactMapping, lru := lru }
  where
    lru_nodup := hp.nodup_iff.mpr h.lru_nodup
    mem_lru g := by
      rw [hp.mem_iff]
      apply h.mem_lru g
    now := by
      rw [hp.length_eq]
      apply h.now
    within := h.within
    mem_reqs := h.mem_reqs

/-- A request without a place ends. -/
theorem Books.finish (h : s.Books) (hdp : s.reqs seq = some dp) (hhint : dp.nowEvictionHint = 0) :
  (s.finish seq).Books
  where
    lru_nodup := h.lru_nodup
    mem_lru := h.mem_lru
    now := h.now
    within := by
      have hold : hintOf s.reqs seq = 0 := by simp [hintOf, hdp, hhint]
      apply (h.within.leave hold).congr
      intro seq' hseq'
      have hne : seq' ≠ seq := by
        rintro rfl
        apply h.within.nodup.not_mem_erase hseq'
      simp [hintOf, CoarseMap.finish, hne]
    mem_reqs seq' := by
      rcases eq_or_ne seq' seq with rfl | hne
      · simpa [CoarseMap.finish] using h.within.nodup.not_mem_erase
      · simpa [CoarseMap.finish, hne, List.mem_erase_of_ne hne] using h.mem_reqs seq'

/-- A new request. -/
theorem Books.issue (h : s.Books) (hseq : seq ∉ s.allNowReq) (hhint : dp.nowEvictionHint = 0) :
  Books { s.setReq seq dp with allNowReq := seq :: s.allNowReq }
  where
    lru_nodup := h.lru_nodup
    mem_lru := h.mem_lru
    now := h.now
    within := by
      have hw := h.within.enter hseq
      rw [← hhint, ← hintOf_update] at hw
      apply hw
    mem_reqs seq' := by
      rcases eq_or_ne seq' seq with rfl | hne
      · simp [CoarseMap.setReq]
      · simpa [CoarseMap.setReq, hne] using h.mem_reqs seq'

end CoarseMap

/-! ### The way of the requests -/

namespace DemandParam

/-- The translation page of the current lba of a request. -/
def page (dp : DemandParam) : ℕ := getGtdIdx (dp.target.headD (0, 0)).1

/-- A request has a place when it has evicted a page, and while it reads one.  `busy` is the page
whose requests are being served: its reader has turned its place into the page. -/
def HasPlace (busy : Option ℕ) (dp : DemandParam) : Prop :=
  dp.status = .evictionw ∨ (dp.status = .missr ∧ dp.blocked = false ∧ busy ≠ some dp.page)

instance (busy : Option ℕ) (dp : DemandParam) : Decidable (HasPlace busy dp) :=
  inferInstanceAs (Decidable (_ ∨ _))

/-- A request on its way.  `cur` is the request that is taken up. -/
structure Ok (busy cur : Option ℕ) (gtd : ℕ → GtdEntry) (flying : ℕ → Option ℕ) (seq : ℕ)
    (dp : DemandParam) : Prop where
  target : dp.target ≠ []
  hint : dp.nowEvictionHint = if dp.HasPlace busy then 1 else 0
  blocked : dp.blocked = true → dp.status = .missr
  hit : dp.status = .hit → cur = some seq
  reader : dp.status = .missr → dp.blocked = false → flying dp.page = some seq
  listed : dp.status = .missr → busy ≠ some dp.page → seq ∈ (gtd dp.page).pendingReq
  /-- a read goes to a page in flash only -/
  found : dp.type = .get → dp.status = .evictionw → (gtd dp.page).physicalAddress ≠ uint32Max

end DemandParam

/-- The directory, the reads under way and the requests. -/
structure Flow (busy cur : Option ℕ) (gtd : ℕ → GtdEntry) (flying : ℕ → Option ℕ)
    (reqs : ℕ → Option DemandParam) : Prop where
  /-- a cached page is clean or dirty -/
  cached : ∀ g, (gtd g).privateData = true → (gtd g).status = .clean ∨ (gtd g).status = .dirty
  params : ∀ seq dp, reqs seq = some dp → dp.Ok busy cur gtd flying seq
  pending_nodup : ∀ g, (gtd g).pendingReq.Nodup
  pending : ∀ g, ∀ seq ∈ (gtd g).pendingReq,
    ∃ dp, reqs seq = some dp ∧ dp.status = .missr ∧ dp.page = g

section Flow

variable {busy cur cur' : Option ℕ} {gtd gtd' : ℕ → GtdEntry} {flying flying' : ℕ → Option ℕ}
  {reqs : ℕ → Option DemandParam} {seq g : ℕ} {dp dp' : DemandParam} {etr : GtdEntry}

namespace DemandParam

/-- A request that waits for no page has a place exactly when it has evicted one. -/
theorem ok_idle {target : List (ℕ × ℕ)} (htarget : target ≠ []) :
  (dp.dpInitialize target).Ok busy cur gtd flying seq
  where
    target := htarget
    hint := by simp [dpInitialize, HasPlace]
    blocked := by simp [dpInitialize]
    hit := by simp [dpInitialize]
    reader := by simp [dpInitialize]
    listed := by simp [dpInitialize]
    found := by simp [dpInitialize]

/-- A request that is at the start, or at the end, of an lba has no place. -/
theorem Ok.idle (h : dp.Ok busy cur gtd flying seq) (hevict : dp.status ≠ .evictionw)
    (hmissr : dp.status ≠ .missr) :
  dp.nowEvictionHint = 0 ∧ dp.blocked = false
  := by
  refine ⟨?_, ?_⟩
  · rw [h.hint, if_neg]
    rintro (hs | ⟨hs, -⟩)
    · apply hevict hs
    · apply hmissr hs
  · rw [Bool.eq_false_iff]
    exact fun hb => hmissr (h.blocked hb)

/-- A request sees of the directory the address of its page and the list it is in. -/
theorem Ok.congr (h : dp.Ok busy cur gtd flying seq)
    (hcur : dp.status = .hit → cur = some seq → cur' = some seq)
    (hflying : dp.status = .missr → dp.blocked = false → flying dp.page = some seq →
      flying' dp.page = some seq)
    (hlist : busy ≠ some dp.page → seq ∈ (gtd dp.page).pendingReq →
      seq ∈ (gtd' dp.page).pendingReq)
    (haddress : (gtd dp.page).physicalAddress ≠ uint32Max →
      (gtd' dp.page).physicalAddress ≠ uint32Max) :
  dp.Ok busy cur' gtd' flying' seq
  where
    target := h.target
    hint := h.hint
    blocked := h.blocked
    hit hs := hcur hs (h.hit hs)
    reader hs hb := hflying hs hb (h.reader hs hb)
    listed hs hb := hlist hb (h.listed hs hb)
    found ht hs := haddress (h.found ht hs)

end DemandParam

namespace Flow

/-- A request that waits for no page is in no list. -/
theorem notMem (h : Flow busy cur gtd flying reqs)
    (hdp : ∀ dp, reqs seq = some dp → dp.status ≠ .missr) (g : ℕ) :
  seq ∉ (gtd g).pendingReq
  := by
  intro hmem
  obtain ⟨dp, hseq, hs, -⟩ := h.pending g seq hmem
  apply hdp dp hseq hs

/-- An entry of the directory changes its status, its node or its address. -/
theorem setGtd (h : Flow busy cur gtd flying reqs) (g : ℕ) (etr : GtdEntry)
    (hcached : etr.privateData = true → etr.status = .clean ∨ etr.status = .dirty)
    (hpending : etr.pendingReq = (gtd g).pendingReq)
    (hkeep : (gtd g).physicalAddress ≠ uint32Max → etr.physicalAddress ≠ uint32Max) :
  Flow busy cur (Function.update gtd g etr) flying reqs
  where
    cached g' := by
      rcases eq_or_ne g' g with rfl | hg
      · simpa using hcached
      · simpa [hg] using h.cached g'
    params seq dp hdp := by
      apply (h.params seq dp hdp).congr (fun _ hc => hc) (fun _ _ hf => hf)
      · intro _ hl
        rcases eq_or_ne dp.page g with hg | hg
        · rw [hg] at hl ⊢
          simpa [hpending] using hl
        · simpa [hg] using hl
      · intro hf
        rcases eq_or_ne dp.page g with hg | hg
        · rw [hg] at hf ⊢
          simpa using hkeep hf
        · simpa [hg] using hf
    pending_nodup g' := by
      rcases eq_or_ne g' g with rfl | hg
      · simpa [hpending] using h.pending_nodup g'
      · simpa [hg] using h.pending_nodup g'
    pending g' seq hmem := by
      rcases eq_or_ne g' g with rfl | hg
      · apply h.pending g' seq (by simpa [hpending] using hmem)
      · apply h.pending g' seq (by simpa [hg] using hmem)

/-- A request that is in no list is stored. -/
theorem setReq (h : Flow busy cur gtd flying reqs) (hfree : ∀ g, seq ∉ (gtd g).pendingReq)
    (hcur : ∀ seq' ≠ seq, cur = some seq' → cur' = some seq')
    (hok : dp'.Ok busy cur' gtd flying seq) :
  Flow busy cur' gtd flying (Function.update reqs seq (some dp'))
  where
    cached := h.cached
    params seq' dp'' hdp'' := by
      rcases eq_or_ne seq' seq with rfl | hne
      · rw [Function.update_self] at hdp''
        cases hdp''
        apply hok
      · rw [Function.update_of_ne hne] at hdp''
        apply (h.params seq' dp'' hdp'').congr (fun _ => hcur seq' hne) (fun _ _ hf => hf)
          (fun _ hl => hl) (fun ha => ha)
    pending_nodup := h.pending_nodup
    pending g seq' hmem := by
      obtain ⟨dp'', hdp'', hs, hg⟩ := h.pending g seq' hmem
      have hne : seq' ≠ seq := by
        rintro rfl
        apply hfree g hmem
      use dp'', by rw [Function.update_of_ne hne, hdp''], hs, hg

/-- A request that is in no list ends. -/
theorem finish (h : Flow busy cur gtd flying reqs) (hfree : ∀ g, seq ∉ (gtd g).pendingReq)
    (hcur : ∀ seq' ≠ seq, cur = some seq' → cur' = some seq') :
  Flow busy cur' gtd flying (Function.update reqs seq none)
  where
    cached := h.cached
    params seq' dp'' hdp'' := by
      rcases eq_or_ne seq' seq with rfl | hne
      · rw [Function.update_self] at hdp''
        cases hdp''
      · rw [Function.update_of_ne hne] at hdp''
        apply (h.params seq' dp'' hdp'').congr (fun _ => hcur seq' hne) (fun _ _ hf => hf)
          (fun _ hl => hl) (fun ha => ha)
    pending_nodup := h.pending_nodup
    pending g seq' hmem := by
      obtain ⟨dp'', hdp'', hs, hg⟩ := h.pending g seq' hmem
      have hne : seq' ≠ seq := by
        rintro rfl
        apply hfree g hmem
      use dp'', by rw [Function.update_of_ne hne, hdp''], hs, hg

/-- A request is put into the list of its page, to wait for the read of another one or to read
the page itself. -/
theorem enter (h : Flow none cur gtd flying reqs) (g : ℕ) (etr : GtdEntry)
    (flying' : ℕ → Option ℕ) (dp' : DemandParam) (hfree : ∀ g, seq ∉ (gtd g).pendingReq)
    (hcached : etr.privateData = true → etr.status = .clean ∨ etr.status = .dirty)
    (hpending : etr.pendingReq = (gtd g).pendingReq ++ [seq])
    (haddress : etr.physicalAddress = (gtd g).physicalAddress)
    (hflying : ∀ g' seq', flying g' = some seq' → flying' g' = some seq')
    (htarget : dp'.target ≠ []) (hstatus : dp'.status = .missr) (hpage : dp'.page = g)
    (hhint : dp'.nowEvictionHint = if dp'.blocked then 0 else 1)
    (hreader : dp'.blocked = false → flying' g = some seq) :
  Flow none cur (Function.update gtd g etr) flying' (Function.update reqs seq (some dp'))
  where
    cached g' := by
      rcases eq_or_ne g' g with rfl | hg
      · simpa using hcached
      · simpa [hg] using h.cached g'
    params seq' dp'' hdp'' := by
      rcases eq_or_ne seq' seq with rfl | hne
      · rw [Function.update_self] at hdp''
        cases hdp''
        refine ⟨htarget, ?_, fun _ => hstatus, ?_, ?_, ?_, ?_⟩
        · rw [hhint]
          cases hb : dp'.blocked with
          | true => simp [DemandParam.HasPlace, hb, hstatus]
          | false => simp [DemandParam.HasPlace, hb, hstatus]
        · intro hs
          rw [hstatus] at hs
          cases hs
        · intro _ hb
          rw [hpage]
          apply hreader hb
        · intro _ _
          rw [hpage, Function.update_self, hpending]
          simp
        · intro _ hs
          rw [hstatus] at hs
          cases hs
      · rw [Function.update_of_ne hne] at hdp''
        apply (h.params seq' dp'' hdp'').congr (fun _ hc => hc) (fun _ _ => hflying _ _)
        · intro _ hl
          rcases eq_or_ne dp''.page g with hg | hg
          · rw [hg] at hl ⊢
            simp [hpending, hl]
          · simpa [hg] using hl
        · intro hf
          rcases eq_or_ne dp''.page g with hg | hg
          · rw [hg] at hf ⊢
            simpa [haddress] using hf
          · simpa [hg] using hf
    pending_nodup g' := by
      rcases eq_or_ne g' g with rfl | hg
      · rw [Function.update_self, hpending, List.nodup_append]
        use h.pending_nodup g', List.nodup_singleton seq
        rintro a ha b hb rfl
        rw [List.mem_singleton.mp hb] at ha
        apply hfree g' ha
      · simpa [hg] using h.pending_nodup g'
    pending g' seq' hmem := by
      rcases eq_or_ne seq' seq with rfl | hne
      · use dp', Function.update_self .., hstatus
        rcases eq_or_ne g' g with rfl | hg
        · apply hpage
        · rw [Function.update_of_ne hg] at hmem
          exact absurd hmem (hfree g')
      · rw [Function.update_of_ne hne]
        apply h.pending
        rcases eq_or_ne g' g with rfl | hg
        · simpa [hpending, hne] using hmem
        · simpa [hg] using hmem

/-- A request leaves the list of the page that is served. -/
theorem leave (h : Flow (some g) cur gtd flying reqs) (hcached : etr.privateData = true →
      etr.status = .clean ∨ etr.status = .dirty)
    (hpending : etr.pendingReq = (gtd g).pendingReq.erase seq)
    (haddress : etr.physicalAddress = (gtd g).physicalAddress) :
  Flow (some g) cur (Function.update gtd g etr) flying reqs
  where
    cached g' := by
      rcases eq_or_ne g' g with rfl | hg
      · simpa using hcached
      · simpa [hg] using h.cached g'
    params seq' dp hdp := by
      apply (h.params seq' dp hdp).congr (fun _ hc => hc) (fun _ _ hf => hf)
      · intro hbusy hl
        have hg : dp.page ≠ g := fun hg => hbusy (by rw [hg])
        simpa [hg] using hl
      · intro hf
        rcases eq_or_ne dp.page g with hg | hg
        · rw [hg] at hf ⊢
          simpa [haddress] using hf
        · simpa [hg] using hf
    pending_nodup g' := by
      rcases eq_or_ne g' g with rfl | hg
      · rw [Function.update_self, hpending]
        apply (h.pending_nodup g').erase seq
      · simpa [hg] using h.pending_nodup g'
    pending g' seq' hmem := by
      apply h.pending
      rcases eq_or_ne g' g with rfl | hg
      · rw [Function.update_self, hpending] at hmem
        apply List.mem_of_mem_erase hmem
      · simpa [hg] using hmem

/-- The requests of a page begin to be served: its reader turns its place into the page. -/
theorem serve (h : Flow none cur gtd flying reqs) (etr : GtdEntry) (hdp : reqs seq = some dp)
    (hmissr : dp.status = .missr) (hblocked : dp.blocked = false)
    (hcached : etr.privateData = true → etr.status = .clean ∨ etr.status = .dirty)
    (hpending : etr.pendingReq = (gtd dp.page).pendingReq)
    (haddress : etr.physicalAddress = (gtd dp.page).physicalAddress) :
  Flow (some dp.page) cur (Function.update gtd dp.page etr) flying
    (Function.update reqs seq (some { dp with nowEvictionHint := 0 }))
  := by
  have hg := h.setGtd dp.page etr hcached hpending (by rw [haddress]; exact id)
  have hok := hg.params seq dp hdp
  have hfly := hok.reader hmissr hblocked
  refine ⟨hg.cached, ?_, hg.pending_nodup, ?_⟩
  · intro seq' dp' hdp'
    rcases eq_or_ne seq' seq with rfl | hne
    · rw [Function.update_self] at hdp'
      cases hdp'
      refine ⟨hok.target, ?_, hok.blocked, hok.hit, hok.reader, ?_, hok.found⟩
      · simp [DemandParam.HasPlace, DemandParam.page, hmissr]
      · intro _ hbusy
        exact absurd rfl hbusy
    · rw [Function.update_of_ne hne] at hdp'
      have hok' := hg.params seq' dp' hdp'
      refine ⟨hok'.target, ?_, hok'.blocked, hok'.hit, hok'.reader, ?_, hok'.found⟩
      · rw [hok'.hint]
        apply if_congr _ rfl rfl
        unfold DemandParam.HasPlace
        apply or_congr Iff.rfl
        constructor
        · rintro ⟨hs, hb, -⟩
          use hs, hb
          intro hpage
          have hfly' := hok'.reader hs hb
          rw [← Option.some.inj hpage, hfly] at hfly'
          apply hne (Option.some.inj hfly').symm
        · rintro ⟨hs, hb, -⟩
          use hs, hb, by simp
      · intro hs _
        apply hok'.listed hs (by simp)
  · intro g' seq' hmem
    obtain ⟨dp', hdp', hs, hpage⟩ := hg.pending g' seq' hmem
    rcases eq_or_ne seq' seq with rfl | hne
    · rw [hdp] at hdp'
      cases hdp'
      exact ⟨_, Function.update_self .., hs, hpage⟩
    · use dp', by rw [Function.update_of_ne hne, hdp'], hs, hpage

/-- All the requests of a page have been served. -/
theorem served (h : Flow (some g) cur gtd flying reqs)
    (hnone : ∀ seq dp, reqs seq = some dp → dp.status = .missr → dp.page ≠ g) :
  Flow none cur gtd (Function.update flying g none) reqs
  where
    cached := h.cached
    params seq dp hdp := by
      have hok := h.params seq dp hdp
      have hbusy : dp.status = .missr → some g ≠ some dp.page := by
        intro hs hpage
        apply hnone seq dp hdp hs (Option.some.inj hpage).symm
      refine ⟨hok.target, ?_, hok.blocked, hok.hit, ?_, ?_, hok.found⟩
      · rw [hok.hint]
        apply if_congr _ rfl rfl
        unfold DemandParam.HasPlace
        apply or_congr Iff.rfl
        constructor
        · rintro ⟨hs, hb, -⟩
          use hs, hb, by simp
        · rintro ⟨hs, hb, -⟩
          use hs, hb, hbusy hs
      · intro hs hb
        rw [Function.update_of_ne (hnone seq dp hdp hs)]
        apply hok.reader hs hb
      · intro hs _
        apply hok.listed hs (hbusy hs)
    pending_nodup := h.pending_nodup
    pending := h.pending

/-- A request is taken up. -/
theorem taken (h : Flow busy none gtd flying reqs) :
  Flow busy (some seq) gtd flying reqs
  where
    cached := h.cached
    params seq' dp hdp :=
      (h.params seq' dp hdp).congr (fun _ hc => nomatch hc) (fun _ _ hf => hf) (fun _ hl => hl)
        (fun ha => ha)
    pending_nodup := h.pending_nodup
    pending := h.pending

end Flow

end Flow

namespace CoarseMap

/-! ### Updates of the mapping -/

/-- The failures of a cache that is not beyond its size. -/
def NotFull (e : Abort) : Prop := e ≠ .cachingOverflow ∧ e ≠ .cachingBigger

instance (e : Abort) : Decidable (NotFull e) := inferInstanceAs (Decidable (_ ∧ _))

/-- The books agree, and the requests are on their way. -/
structure Sound (busy cur : Option ℕ) (s : CoarseMap) : Prop where
  books : s.Books
  flow : Flow busy cur s.gtd s.flyingMapRead s.reqs

/-- What an update of the mapping leaves as it is. -/
structure SameCalls (s s' : CoarseMap) : Prop where
  reqs : s'.reqs = s.reqs
  pending : ∀ g, (s'.gtd g).pendingReq = (s.gtd g).pendingReq
  cached : ∀ g, (s.gtd g).privateData = true → (s'.gtd g).privateData = true

variable {busy cur : Option ℕ} {s : CoarseMap} {seq g lba ppa mapPpa : ℕ} {dp : DemandParam}

theorem checkCachingSize_meets {evictionHint : ℤ}
    (h : s.nowCachingPage + evictionHint ≤ s.maxCachingPage) :
  Meets NotFull (fun _ => True) (s.checkCachingSize evictionHint)
  := by
  apply (meets_require (by decide)).bind
  intro _ _
  apply (meets_of_eq (require_eq_ok (u := ()) |>.mpr h)).mono fun _ _ => trivial

/-- A cached page is clean or dirty. -/
theorem Sound.status_ne_empty (h : Sound busy cur s) (hp : (s.gtd g).privateData = true) :
  (s.gtd g).status ≠ .empty
  := by
  intro hempty
  rcases h.flow.cached g hp with hs | hs
  · rw [hs] at hempty
    cases hempty
  · rw [hs] at hempty
    cases hempty

/-- The page of an update has a node afterwards, and only a page that was never there needs a
new one. -/
theorem updateNode_meets (h : Sound busy cur s)
    (hpush : (s.gtd g).status = .empty →
      (s.nowCachingPage + 1 : ℕ) + s.evictionHint ≤ s.maxCachingPage) :
  Meets NotFull (fun s' => s'.Books ∧ s'.evictionHint = s.evictionHint ∧ s'.reqs = s.reqs ∧
      s'.flyingMapRead = s.flyingMapRead ∧
      s'.gtd = Function.update s.gtd g { s.gtd g with privateData := true })
    (s.updateNode g)
  := by
  unfold updateNode
  split
  · rename_i hempty
    refine ⟨h.books.lruPush g ?_ (hpush hempty), rfl, rfl, rfl, rfl⟩
    rw [Bool.eq_false_iff]
    intro hp
    apply h.status_ne_empty hp hempty
  · apply (meets_require (by decide)).bind
    intro _ hp
    refine ⟨h.books, rfl, rfl, rfl, ?_⟩
    rw [← hp, Function.update_eq_self]

/-- `__update_entry`. -/
theorem updateEntryWith_meets {isgc : Bool} {evictionHint : ℤ} (h : Sound busy cur s)
    (hle : evictionHint ≤ s.evictionHint)
    (hpush : (s.gtd g).status = .empty →
      (s.nowCachingPage + 1 : ℕ) + s.evictionHint ≤ s.maxCachingPage) :
  Meets NotFull (fun x => Sound busy cur x.1 ∧ SameCalls s x.1)
    (s.updateEntryWith isgc evictionHint g lba ppa)
  := by
  apply (updateNode_meets h hpush).bind
  rintro s₁ ⟨hb, hhint, hreqs, hfly, hgtd⟩
  have hp : (s₁.gtd g).privateData = true := by
    rw [hgtd, Function.update_self]
  have hmem : g ∈ s₁.lru := (hb.mem_lru g).mpr hp
  have hwithin := hb.within.le
  dsimp only
  apply (checkCachingSize_meets ?_).bind
  · intro _ _
    refine ⟨⟨(hb.reorder ?_ _).setGtd g _ rfl, ?_⟩, hreqs, ?_, ?_⟩
    · split
      · exact .refl _
      · apply (List.perm_cons_erase hmem).symm
    · have hflow := h.flow.setGtd g { s.gtd g with privateData := true, status := .dirty }
        (fun _ => .inr rfl) rfl (fun ha => ha)
      simp only [CoarseMap.setStatus, CoarseMap.setGtd, hgtd, hreqs, hfly, Function.update_idem,
        Function.update_self]
      apply hflow
    · intro g'
      rcases eq_or_ne g' g with rfl | hg
      · simp [CoarseMap.setStatus, CoarseMap.setGtd, hgtd]
      · simp [CoarseMap.setStatus, CoarseMap.setGtd, hgtd, hg]
    · intro g' hg'
      rcases eq_or_ne g' g with rfl | hg
      · simp [CoarseMap.setStatus, CoarseMap.setGtd, hgtd]
      · simpa [CoarseMap.setStatus, CoarseMap.setGtd, hgtd, hg] using hg'
  · simp only [CoarseMap.setStatus, CoarseMap.setGtd]
    omega

/-- The case `HIT`. -/
theorem hit_meets (h : Sound busy cur s)
    (hpush : (s.gtd (getGtdIdx lba)).status = .empty →
      (s.nowCachingPage + 1 : ℕ) + s.evictionHint ≤ s.maxCachingPage) :
  Meets NotFull (fun x => x.2 = .done ∧ Sound busy cur x.1 ∧ x.1.reqs = s.reqs)
    (s.hit dp lba ppa)
  := by
  unfold hit
  split
  · unfold getMapping
    simp only [bind_assoc]
    apply (meets_require (by decide)).bind
    intro _ _
    exact ⟨rfl, h, rfl⟩
  · apply (updateEntryWith_meets h le_rfl hpush).bind
    rintro ⟨s', old⟩ ⟨hs', hsame⟩
    use rfl, hs', hsame.reqs

/-! ### The read of a page -/

/-- Request `seq` has come to the end of its lba, and nothing else has changed. -/
structure Served (busy : Option ℕ) (seq : ℕ) (s s' : CoarseMap) : Prop where
  sound : Sound busy none s'
  gtd : s'.gtd = s.gtd
  others : ∀ seq' ≠ seq, s'.reqs seq' = s.reqs seq'
  self : ∀ dp, s'.reqs seq = some dp → dp.status = .none

theorem Sound.finish (h : Sound busy cur s) (hcur : cur = none ∨ cur = some seq)
    (hdp : s.reqs seq = some dp) (hhint : dp.nowEvictionHint = 0)
    (hfree : ∀ g, seq ∉ (s.gtd g).pendingReq) :
  Served busy seq s (s.finish seq)
  where
    sound := by
      refine ⟨h.books.finish hdp hhint, h.flow.finish hfree ?_⟩
      intro seq' hne hc
      rcases hcur with rfl | rfl
      · apply hc
      · exact absurd (Option.some.inj hc).symm hne
    gtd := rfl
    others seq' hne := Function.update_of_ne hne ..
    self dp' hdp' := by
      simp only [CoarseMap.finish, Function.update_self] at hdp'
      cases hdp'

theorem Sound.initialized {target : List (ℕ × ℕ)} {dp' : DemandParam} (h : Sound busy cur s)
    (hcur : cur = none ∨ cur = some seq) (hdp : s.reqs seq = some dp)
    (hhint : dp.nowEvictionHint = 0) (hfree : ∀ g, seq ∉ (s.gtd g).pendingReq)
    (htarget : target ≠ []) :
  Served busy seq s (s.setReq seq (dp'.dpInitialize target))
  where
    sound := by
      refine ⟨?_, h.flow.setReq hfree ?_ (DemandParam.ok_idle htarget)⟩
      · apply h.books.setReq hdp _ s.evictionHint
        · simp [DemandParam.dpInitialize, hhint]
        · apply h.books.within.le
      · intro seq' hne hc
        rcases hcur with rfl | rfl
        · apply hc
        · exact absurd (Option.some.inj hc).symm hne
    gtd := rfl
    others seq' hne := Function.update_of_ne hne ..
    self dp'' hdp'' := by
      simp only [CoarseMap.setReq, Function.update_self] at hdp''
      cases hdp''
      rfl

theorem Sound.advance (h : Sound busy none s) (hdp : s.reqs seq = some dp)
    (hhint : dp.nowEvictionHint = 0) (hfree : ∀ g, seq ∉ (s.gtd g).pendingReq) :
  Served busy seq s (s.advance seq dp)
  := by
  unfold CoarseMap.advance
  split
  · apply h.finish (.inl rfl) hdp hhint hfree
  · rename_i target hne
    apply h.initialized (.inl rfl) hdp hhint hfree hne

/-- The requests `l` for page `g` are still to be served.  Request `seq` has read the page. -/
structure Serving (g seq : ℕ) (l : List ℕ) (s : CoarseMap) : Prop where
  sound : Sound (some g) none s
  cached : (s.gtd g).privateData = true
  pending : (s.gtd g).pendingReq = l
  waits : ∀ seq' dp, s.reqs seq' = some dp → dp.status = .missr → dp.page = g → seq' ∈ l
  reader : ∀ dp, s.reqs seq = some dp → seq ∈ l ∨ dp.status = .none

/-- The requests that are left when one has been served. -/
theorem Serving.served {a : ℕ} {l : List ℕ} {s₁ s' : CoarseMap} (h : Serving g seq (a :: l) s)
    (hs' : Served (some g) a s₁ s') (hreqs : s₁.reqs = s.reqs)
    (hpending : (s₁.gtd g).pendingReq = l) (hcached : (s₁.gtd g).privateData = true) :
  Serving g seq l s'
  where
    sound := hs'.sound
    cached := by
      rw [hs'.gtd]
      apply hcached
    pending := by
      rw [hs'.gtd]
      apply hpending
    waits seq' dp hdp hs hg := by
      rcases eq_or_ne seq' a with rfl | hne
      · rw [hs'.self dp hdp] at hs
        cases hs
      · rw [hs'.others seq' hne, hreqs] at hdp
        apply (List.mem_cons.mp (h.waits seq' dp hdp hs hg)).resolve_left hne
    reader dp hdp := by
      rcases eq_or_ne seq a with rfl | hne
      · right
        apply hs'.self dp hdp
      · rw [hs'.others seq hne, hreqs] at hdp
        rcases h.reader dp hdp with hmem | hs
        · left
          apply (List.mem_cons.mp hmem).resolve_left hne
        · right
          apply hs

theorem pendingTurn_meets {a : ℕ} {l : List ℕ} (h : Serving g seq (a :: l) s) :
  Meets NotFull (Serving g seq l) (pendingTurn g s a)
  := by
  apply (meets_orThrow fun _ => by decide).bind
  intro dp hdp
  apply (meets_orThrow fun _ => by decide).bind
  rintro ⟨lba, ppa⟩ _
  obtain ⟨dp', hdp', hmissr, hpage⟩ := h.sound.flow.pending g a (by rw [h.pending]; simp)
  rw [hdp] at hdp'
  cases hdp'
  have hok := h.sound.flow.params a dp hdp
  have hhint : dp.nowEvictionHint = 0 := by
    rw [hok.hint, if_neg]
    simp [DemandParam.HasPlace, hmissr, hpage]
  have hnodup := h.sound.flow.pending_nodup g
  rw [h.pending, List.nodup_cons] at hnodup
  have hleft : ((s.listDelete g a).gtd g).pendingReq = l := by
    simp [listDelete, CoarseMap.setGtd, h.pending]
  have hsound : Sound (some g) none (s.listDelete g a) :=
    ⟨h.sound.books.setGtd g _ rfl, h.sound.flow.leave (h.sound.flow.cached g) rfl rfl⟩
  have hfree : ∀ g', a ∉ ((s.listDelete g a).gtd g').pendingReq := by
    intro g' hmem
    obtain ⟨dp', hdp', -, hpage'⟩ := hsound.flow.pending g' a hmem
    rw [show (s.listDelete g a).reqs a = some dp from hdp] at hdp'
    cases hdp'
    rw [← hpage', hpage, hleft] at hmem
    apply hnodup.1 hmem
  have hcached : ((s.listDelete g a).gtd g).privateData = true := by
    simpa [listDelete, CoarseMap.setGtd] using h.cached
  dsimp only
  split
  · unfold getMapping
    simp only [bind_assoc]
    apply (meets_require (by decide)).bind
    intro _ _
    apply h.served (hsound.finish (.inl rfl) hdp hhint hfree) rfl hleft hcached
  · apply (meets_require (by decide)).bind
    intro _ _
    apply (updateEntryWith_meets hsound le_rfl ?_).bind
    · rintro ⟨s₁, old⟩ ⟨hs₁, hsame⟩
      refine h.served (hs₁.advance (by rw [hsame.reqs]; exact hdp) hhint ?_) hsame.reqs
        ((hsame.pending g).trans hleft) (hsame.cached g hcached)
      intro g'
      rw [hsame.pending g']
      apply hfree g'
    · intro hempty
      exact absurd hempty (hsound.status_ne_empty hcached)

theorem insertEntryFromTranslation_meets {n : ℕ}
    (hle : (s.nowCachingPage + 1 : ℕ) + (s.evictionHint - n) ≤ s.maxCachingPage) :
  Meets NotFull (fun s' => (s.gtd g).privateData = false ∧
      s' = { (s.lruPush g).setStatus g .clean with evictionHint := s.evictionHint - n })
    (s.insertEntryFromTranslation g n)
  := by
  apply (meets_require (by decide)).bind
  intro _ hp
  dsimp only
  apply (checkCachingSize_meets hle).bind
  intro _ _
  exact ⟨hp, rfl⟩

/-- A request that has been answered is at the end of its lba. -/
structure Answered (seq : ℕ) (s : CoarseMap) : Prop where
  sound : Sound none (some seq) s
  param : ∃ dp, s.reqs seq = some dp ∧ dp.status ≠ .evictionw ∧ dp.status ≠ .missr

/-- What a call of `cache_traverse_state` leaves. -/
def Left (seq : ℕ) : CoarseMap × TraverseEnd → Prop
  | (s, .done) => Answered seq s
  | (s, .notFound) => Answered seq s
  | (s, _) => Sound none none s

/-- The requests for a page that has been read are to be served. -/
theorem Sound.load (h : Sound none none s) (hdp : s.reqs seq = some dp)
    (hmissr : dp.status = .missr) (hblocked : dp.blocked = false)
    (hnew : (s.gtd dp.page).privateData = false) (hhint : dp.nowEvictionHint = 1) :
  Serving dp.page seq (s.gtd dp.page).pendingReq
    (CoarseMap.setReq { (s.lruPush dp.page).setStatus dp.page .clean with
      evictionHint := s.evictionHint - (1 : ℕ) } seq { dp with nowEvictionHint := 0 })
  := by
  have hle := h.books.within.le
  have hok := h.flow.params seq dp hdp
  have hgtd : ((s.lruPush dp.page).setStatus dp.page .clean).gtd =
      Function.update s.gtd dp.page
        { s.gtd dp.page with privateData := true, status := .clean } := by
    simp [CoarseMap.setStatus, CoarseMap.lruPush, CoarseMap.setGtd]
  refine ⟨⟨?_, ?_⟩, ?_, ?_, ?_, ?_⟩
  · have hb := h.books.setReq hdp { dp with nowEvictionHint := 0 }
      (s.evictionHint - (1 : ℕ)) (by simp [hhint]) (by omega)
    have hpush := hb.lruPush dp.page hnew (by dsimp only [CoarseMap.setReq]; omega)
    apply hpush.setGtd dp.page { (s.lruPush dp.page).gtd dp.page with status := .clean } rfl
  · have hflow := h.flow.serve { s.gtd dp.page with privateData := true, status := .clean }
      hdp hmissr hblocked (fun _ => .inl rfl) rfl rfl
    rw [← hgtd] at hflow
    apply hflow
  · change (((s.lruPush dp.page).setStatus dp.page .clean).gtd dp.page).privateData = true
    rw [hgtd, Function.update_self]
  · change (((s.lruPush dp.page).setStatus dp.page .clean).gtd dp.page).pendingReq = _
    rw [hgtd, Function.update_self]
  · intro seq' dp' hdp' hs hg
    simp only [CoarseMap.setReq] at hdp'
    rcases eq_or_ne seq' seq with rfl | hne
    · apply hok.listed hmissr (by simp)
    · rw [Function.update_of_ne hne] at hdp'
      rw [← hg]
      apply (h.flow.params seq' dp' hdp').listed hs (by simp)
  · intro dp' _
    left
    apply hok.listed hmissr (by simp)

/-- The case `MISSR`: the page has been read. -/
theorem coarseTypePending_meets (h : Sound none none s) (hdp : s.reqs seq = some dp)
    (hmissr : dp.status = .missr) (hblocked : dp.blocked = false) :
  Meets NotFull (Left seq) (s.coarseTypePending seq dp dp.page)
  := by
  have hle := h.books.within.le
  have hhint : dp.nowEvictionHint = 1 := by
    rw [(h.flow.params seq dp hdp).hint, if_pos]
    right
    use hmissr, hblocked, by simp
  unfold coarseTypePending
  rw [hhint]
  apply (insertEntryFromTranslation_meets (by omega)).bind
  rintro s₁ ⟨hnew, rfl⟩
  dsimp only
  apply (meets_require (by decide)).bind
  intro _ _
  have hserving := h.load hdp hmissr hblocked hnew hhint
  rw [← hserving.pending] at hserving
  apply (meets_foldlM_rest (Serving dp.page seq) (fun a l s hs => pendingTurn_meets hs)
    hserving).bind
  intro s₂ hs₂
  have hsound : Sound none none
      { s₂ with flyingMapRead := Function.update s₂.flyingMapRead dp.page none } := by
    refine ⟨⟨hs₂.sound.books.lru_nodup, hs₂.sound.books.mem_lru, hs₂.sound.books.now,
      hs₂.sound.books.within, hs₂.sound.books.mem_reqs⟩, hs₂.sound.flow.served ?_⟩
    intro seq' dp' hdp' hs hg
    apply List.not_mem_nil (hs₂.waits seq' dp' hdp' hs hg)
  split
  · rename_i hsome
    obtain ⟨dp', hdp'⟩ := Option.isSome_iff_exists.mp hsome
    have hs : dp'.status = .none := (hs₂.reader dp' hdp').resolve_left List.not_mem_nil
    use ⟨hsound.books, hsound.flow.taken⟩, dp', hdp', by simp [hs], by simp [hs]
  · apply hsound

/-! ### The cases of a call -/

theorem dpStatusUpdate_meets (status : MapAssignStatus) :
  Meets NotFull (fun dp' => dp' = { dp with status := status }) (dp.dpStatusUpdate status)
  := by
  apply (meets_require (by decide)).bind
  intro _ _
  rfl

theorem returnHint_meets :
  Meets NotFull (fun x => x = ({ s with evictionHint := s.evictionHint - dp.nowEvictionHint },
      { dp with nowEvictionHint := 0 }))
    (s.returnHint dp)
  := by
  apply (meets_require (by decide)).bind
  intro _ _
  rfl

section Cases

variable (dp' : DemandParam) (evictionHint : ℤ) (h : Sound none none s)
  (hdp : s.reqs seq = some dp) (hmissr : dp.status ≠ .missr) (htarget : dp'.target = dp.target)

include h hdp hmissr

theorem Sound.notMem (g : ℕ) :
  seq ∉ (s.gtd g).pendingReq
  := by
  apply h.flow.notMem
  intro dp' hdp'
  rw [hdp] at hdp'
  cases hdp'
  apply hmissr

theorem Sound.notBlocked :
  dp.blocked = false
  := by
  rw [Bool.eq_false_iff]
  exact fun hb => hmissr ((h.flow.params seq dp hdp).blocked hb)

include htarget

/-- A request goes to `HIT` and returns its place. -/
theorem Sound.hit (hstatus : dp'.status = .hit) (hhint : dp'.nowEvictionHint = 0)
    (hblocked : dp'.blocked = false)
    (heq : evictionHint = s.evictionHint - dp.nowEvictionHint) :
  Sound none (some seq) (CoarseMap.setReq { s with evictionHint := evictionHint } seq dp')
  := by
  have hle := h.books.within.le
  use h.books.setReq hdp dp' evictionHint (by rw [heq, hhint]; simp) (by omega)
  apply h.flow.setReq (h.notMem hdp hmissr) (fun _ _ hc => nomatch hc)
  constructor
  · rw [htarget]
    apply (h.flow.params seq dp hdp).target
  · simp [hhint, DemandParam.HasPlace, hstatus]
  · simp [hblocked]
  · simp
  · simp [hstatus]
  · simp [hstatus]
  · simp [hstatus]

/-- A request waits for the read of another one and returns its place. -/
theorem Sound.wait (hstatus : dp'.status = .missr) (hhint : dp'.nowEvictionHint = 0)
    (hblocked : dp'.blocked = true)
    (heq : evictionHint = s.evictionHint - dp.nowEvictionHint) :
  Sound none none
    (CoarseMap.setReq { s.listInsert dp.page seq with evictionHint := evictionHint } seq dp')
  := by
  have hle := h.books.within.le
  refine ⟨?_, ?_⟩
  · have hb := h.books.setReq hdp dp' evictionHint (by rw [heq, hhint]; simp) (by omega)
    exact hb.setGtd dp.page _ rfl
  · apply h.flow.enter dp.page
      { s.gtd dp.page with pendingReq := (s.gtd dp.page).pendingReq ++ [seq] } _ dp'
      (h.notMem hdp hmissr) (h.flow.cached dp.page) rfl rfl (fun _ _ hf => hf) _ hstatus
    · rw [DemandParam.page, htarget]
      rfl
    · simp [hhint, hblocked]
    · simp [hblocked]
    · rw [htarget]
      apply (h.flow.params seq dp hdp).target

/-- A request reads its page. -/
theorem Sound.read (hstatus : dp'.status = .missr) (hhint : dp'.nowEvictionHint = 1)
    (hblocked : dp'.blocked = false) (hnew : (s.gtd dp.page).privateData = false)
    (hfly : s.flyingMapRead dp.page = none)
    (heq : evictionHint = s.evictionHint + 1 - dp.nowEvictionHint)
    (hle : s.nowCachingPage + evictionHint ≤ s.maxCachingPage) :
  Sound none none
    (CoarseMap.setReq { (s.listInsert dp.page seq).setStatus dp.page .flying with
      flyingMapRead := Function.update s.flyingMapRead dp.page (some seq)
      evictionHint := evictionHint } seq dp')
  := by
  have hgtd : ((s.listInsert dp.page seq).setStatus dp.page .flying).gtd =
      Function.update s.gtd dp.page { s.gtd dp.page with
        pendingReq := (s.gtd dp.page).pendingReq ++ [seq]
        status := .flying } := by
    simp [CoarseMap.setStatus, CoarseMap.listInsert, CoarseMap.setGtd]
  refine ⟨?_, ?_⟩
  · have hb := h.books.setReq hdp dp' evictionHint (by rw [heq, hhint]; simp) hle
    have hins := hb.setGtd dp.page
      { s.gtd dp.page with pendingReq := (s.gtd dp.page).pendingReq ++ [seq] } rfl
    have hset := hins.setGtd dp.page
      { (s.listInsert dp.page seq).gtd dp.page with status := .flying } rfl
    use hset.lru_nodup, hset.mem_lru, hset.now, hset.within, hset.mem_reqs
  · have hflow := h.flow.enter dp.page { s.gtd dp.page with
        pendingReq := (s.gtd dp.page).pendingReq ++ [seq]
        status := .flying } (Function.update s.flyingMapRead dp.page (some seq)) dp'
      (h.notMem hdp hmissr) (by simp [hnew]) rfl rfl ?_ ?_ hstatus ?_ ?_ ?_
    · rw [← hgtd] at hflow
      apply hflow
    · intro g' seq' hf
      rcases eq_or_ne g' dp.page with rfl | hg
      · rw [hfly] at hf
        cases hf
      · rw [Function.update_of_ne hg]
        apply hf
    · rw [htarget]
      apply (h.flow.params seq dp hdp).target
    · rw [DemandParam.page, htarget]
      rfl
    · simp [hhint, hblocked]
    · intro _
      apply Function.update_self ..

end Cases

/-- `map_read_wrapper` for a page that is in flash. -/
theorem mapReadWrapper_meets
    (hfound : ¬ (dp.type = .get ∧ (s.gtd (getGtdIdx lba)).physicalAddress = uint32Max)) :
  Meets NotFull (fun x =>
      ((s.gtd (getGtdIdx lba)).status = .flying ∧
        x = (s.listInsert (getGtdIdx lba) seq, { dp with blocked := true }, .flyingHit)) ∨
      (s.flyingMapRead (getGtdIdx lba) = none ∧
        x = ({ (s.listInsert (getGtdIdx lba) seq).setStatus (getGtdIdx lba) .flying with
          flyingMapRead := Function.update s.flyingMapRead (getGtdIdx lba) (some seq) }, dp,
          .mapReadIssue)))
    (s.mapReadWrapper seq dp lba)
  := by
  unfold mapReadWrapper
  rw [if_neg hfound]
  split
  · rename_i hflying
    left
    exact ⟨hflying, rfl⟩
  · apply (meets_require (by decide)).bind
    intro _ hnone
    right
    exact ⟨hnone, rfl⟩

/-- The case `HIT` for a request that has been stored as such. -/
theorem hit_left {dp' : DemandParam} (h : Sound none (some seq) (s.setReq seq dp'))
    (hstatus : dp'.status = .hit)
    (hpush : (s.gtd (getGtdIdx lba)).status = .empty →
      (s.nowCachingPage + 1 : ℕ) + s.evictionHint ≤ s.maxCachingPage) :
  Meets NotFull (Left seq) ((s.setReq seq dp').hit dp lba ppa)
  := by
  apply (hit_meets h hpush).mono
  rintro ⟨s', res⟩ ⟨hres, hs', hreqs⟩
  dsimp only at hres
  subst hres
  refine ⟨hs', dp', ?_, by simp [hstatus], by simp [hstatus]⟩
  rw [hreqs]
  apply Function.update_self ..

/-- The case `EVICTIONW`: the request has a place. -/
theorem evictionw_meets (h : Sound none none s) (hdp : s.reqs seq = some dp)
    (hs : dp.status = .evictionw) (hpage : getGtdIdx lba = dp.page) :
  Meets NotFull (Left seq) (s.evictionw seq dp lba ppa)
  := by
  have hmissr : dp.status ≠ .missr := by simp [hs]
  have hok := h.flow.params seq dp hdp
  have hblocked := h.notBlocked hdp hmissr
  have hhint : dp.nowEvictionHint = 1 := by
    rw [hok.hint, if_pos]
    left
    apply hs
  have hle := h.books.within.le
  unfold evictionw
  split
  · apply returnHint_meets.bind
    rintro _ rfl
    dsimp only
    apply (dpStatusUpdate_meets .hit).bind
    rintro _ rfl
    have hsound := h.hit { dp with nowEvictionHint := 0, status := .hit } _ hdp hmissr rfl rfl rfl
      hblocked rfl
    apply hit_left hsound rfl
    intro _
    dsimp only
    omega
  · rename_i hmiss
    obtain ⟨-, hnew⟩ := not_or.mp hmiss
    apply (dpStatusUpdate_meets .missr).bind
    rintro _ rfl
    apply (mapReadWrapper_meets ?_).bind
    · rw [hpage]
      rintro x (⟨-, rfl⟩ | ⟨hnone, rfl⟩)
      · apply returnHint_meets.bind
        rintro _ rfl
        apply h.wait { dp with status := .missr, blocked := true, nowEvictionHint := 0 } _ hdp
          hmissr rfl rfl rfl rfl rfl
      · refine h.read { dp with status := .missr } s.evictionHint hdp hmissr rfl rfl hhint
          hblocked ?_ hnone ?_ hle
        · rw [← hpage]
          simpa [exist] using hnew
        · rw [hhint]
          simp
    · rintro ⟨ht, ha⟩
      rw [hpage] at ha
      apply hok.found ht hs ha

/-- A miss that finds a place. -/
theorem coldMiss_meets (h : Sound none none s) (hdp : s.reqs seq = some dp)
    (hs : dp.status = .none) (hpage : getGtdIdx lba = dp.page)
    (hnew : (s.gtd dp.page).privateData = false) (hfly : (s.gtd dp.page).status ≠ .flying)
    (hget : ¬ (dp.type = .get ∧ (s.gtd dp.page).physicalAddress = uint32Max))
    (hroom : (s.nowCachingPage + 1 : ℕ) + s.evictionHint ≤ s.maxCachingPage) :
  Meets NotFull (Left seq) (s.coldMiss seq { dp with nowEvictionHint := 1 } lba ppa)
  := by
  have hmissr : dp.status ≠ .missr := by simp [hs]
  have hblocked := h.notBlocked hdp hmissr
  obtain ⟨hhint, -⟩ := (h.flow.params seq dp hdp).idle (by simp [hs]) hmissr
  unfold coldMiss
  dsimp only
  split
  · apply returnHint_meets.bind
    rintro _ rfl
    dsimp only
    apply (dpStatusUpdate_meets .hit).bind
    rintro _ rfl
    have hsound := h.hit { dp with nowEvictionHint := 0, status := .hit }
      (s.evictionHint + (1 : ℕ) - (1 : ℕ)) hdp hmissr rfl rfl rfl hblocked (by simp [hhint])
    apply hit_left hsound rfl
    intro _
    dsimp only
    omega
  · apply (dpStatusUpdate_meets .missr).bind
    rintro _ rfl
    apply (mapReadWrapper_meets (by rw [hpage]; exact hget)).bind
    rw [hpage]
    rintro x (⟨hflying, rfl⟩ | ⟨hnone, rfl⟩)
    · exact absurd hflying hfly
    · apply h.read { dp with nowEvictionHint := 1, status := .missr } (s.evictionHint + (1 : ℕ)) hdp
        hmissr rfl rfl rfl hblocked hnew hnone (by simp [hhint]) (by omega)

/-- The eviction takes the page used longest ago. -/
theorem getEvictionGtdEntry_meets {l : List ℕ}
    (hcached : (s.gtd g).status = .clean ∨ (s.gtd g).status = .dirty) :
  Meets NotFull (fun x => x = (s.lruDelete g, none) ∨ x = (s, some g))
    (s.getEvictionGtdEntry (g :: l))
  := by
  unfold getEvictionGtdEntry
  rcases hcached with hs | hs
  · rw [hs]
    left
    rfl
  · rw [hs]
    right
    rfl

/-- A page is taken from the cache, and its place goes to a request. -/
theorem Sound.evict (h : Sound none none s) (hdp : s.reqs seq = some dp) (hs : dp.status = .none)
    (hg : (s.gtd g).privateData = true) (hget : dp.type = .get →
      (s.gtd dp.page).physicalAddress ≠ uint32Max) :
  Sound none none (CoarseMap.setReq
    (CoarseMap.lruDelete { s with evictionHint := s.evictionHint + (1 : ℕ) } g) seq
      { dp with nowEvictionHint := 1, status := .evictionw })
  := by
  have hmissr : dp.status ≠ .missr := by simp [hs]
  have hok := h.flow.params seq dp hdp
  obtain ⟨hhint, hblocked⟩ := hok.idle (by simp [hs]) hmissr
  have hle := h.books.within.le
  obtain ⟨hb, hnow⟩ := h.books.lruDelete hg
  have hgtd : (s.lruDelete g).gtd =
      Function.update s.gtd g { s.gtd g with privateData := false } := rfl
  refine ⟨?_, ?_⟩
  · refine hb.setReq hdp { dp with nowEvictionHint := 1, status := .evictionw }
      (s.evictionHint + (1 : ℕ)) ?_ ?_
    · simp [hhint, CoarseMap.lruDelete, CoarseMap.setGtd]
    · simp only [CoarseMap.lruDelete, CoarseMap.setGtd] at hnow ⊢
      omega
  · have hflow := h.flow.setGtd g { s.gtd g with privateData := false } (fun hp => nomatch hp) rfl
      (fun ha => ha)
    refine hflow.setReq ?_ (fun _ _ hc => nomatch hc) ?_
    · apply hflow.notMem
      intro dp' hdp'
      rw [hdp] at hdp'
      cases hdp'
      apply hmissr
    · constructor
      · apply hok.target
      · simp [DemandParam.HasPlace]
      · simp [hblocked]
      · simp
      · simp
      · simp
      · intro ht _
        have ha := hget ht
        change (Function.update s.gtd g _ dp.page).physicalAddress ≠ uint32Max
        rcases eq_or_ne dp.page g with heq | hne
        · rw [heq] at ha ⊢
          rw [Function.update_self]
          apply ha
        · rw [Function.update_of_ne hne]
          apply ha

/-- A translation page has no address that stands for none. -/
theorem mapPpa_ne (mapPpa : ℕ) :
  mapPpa * l2pgap ≠ uint32Max
  := by
  unfold l2pgap uint32Max
  omega

theorem Sound.writeUpdatedMap (h : Sound busy cur s) :
  Sound busy cur (s.writeUpdatedMap g mapPpa)
  := ⟨h.books.setGtd g _ rfl, h.flow.setGtd g _ (h.flow.cached g) rfl fun _ => mapPpa_ne mapPpa⟩

/-- A miss that evicts a page. -/
theorem evictionPath_meets (h : Sound none none s) (hdp : s.reqs seq = some dp)
    (hs : dp.status = .none) (hpage : getGtdIdx lba = dp.page) (hne : s.nowCachingPage ≠ 0)
    (hget : ¬ (dp.type = .get ∧ (s.gtd dp.page).physicalAddress = uint32Max)) :
  Meets NotFull (Left seq) (s.evictionPath mapPpa seq { dp with nowEvictionHint := 1 } lba ppa)
  := by
  have hlru : s.lru ≠ [] := by
    intro hnil
    apply hne
    rw [h.books.now, hnil]
    rfl
  obtain ⟨g, l, hl⟩ := List.exists_cons_of_ne_nil (mt List.reverse_eq_nil_iff.mp hlru)
  have hg : (s.gtd g).privateData = true := by
    rw [← h.books.mem_lru, ← List.mem_reverse, hl]
    apply List.mem_cons_self
  have hevict := h.evict hdp hs hg fun ht ha => hget ⟨ht, ha⟩
  unfold evictionPath
  dsimp only
  rw [hl]
  apply (getEvictionGtdEntry_meets (s := { s with
    evictionHint := s.evictionHint + (1 : ℕ) }) (h.flow.cached g hg)).bind
  rintro x (rfl | rfl)
  · dsimp only
    apply (dpStatusUpdate_meets .evictionw).bind
    rintro _ rfl
    apply evictionw_meets hevict (Function.update_self ..) rfl hpage
  · dsimp only
    apply (dpStatusUpdate_meets .evictionw).bind
    rintro _ rfl
    apply hevict.writeUpdatedMap

theorem isNeededEviction_meets (h : s.nowCachingPage + s.evictionHint ≤ s.maxCachingPage) :
  Meets NotFull (fun x => x = .emptyEviction ∨
      (x = .normalEviction ∧ s.nowCachingPage ≠ 0 ∧
        s.maxCachingPage = s.nowCachingPage + s.evictionHint) ∨
      (x = .haveSpace ∧ (s.nowCachingPage + 1 : ℕ) + s.evictionHint ≤ s.maxCachingPage))
    s.isNeededEviction
  := by
  unfold isNeededEviction
  split
  · rename_i hfull
    split
    · rename_i hne
      right
      left
      exact ⟨rfl, hne, hfull⟩
    · left
      rfl
  · rename_i hfull
    apply Meets.bind (Q := fun _ => True)
    · apply (meets_of_eq (require_eq_ok (u := ()) |>.mpr h)).mono fun _ _ => trivial
    · intro _ _
      refine .inr (.inr ⟨rfl, ?_⟩)
      omega

/-- A request that is stored again as it was. -/
theorem Sound.same {dp' : DemandParam} (h : Sound busy cur s) (hdp : s.reqs seq = some dp)
    (heq : dp' = dp) :
  Sound busy cur (s.setReq seq dp')
  := by
  subst heq
  have hreqs : Function.update s.reqs seq (some dp') = s.reqs := by
    rw [← hdp, Function.update_eq_self]
  unfold CoarseMap.setReq
  rw [hreqs]
  apply h

/-- The case `NONE`. -/
theorem noneCase_meets (h : Sound none none s) (hdp : s.reqs seq = some dp)
    (hs : dp.status = .none) (hpage : getGtdIdx lba = dp.page) :
  Meets NotFull (Left seq) (s.noneCase mapPpa seq dp lba ppa)
  := by
  have hmissr : dp.status ≠ .missr := by simp [hs]
  have hok := h.flow.params seq dp hdp
  obtain ⟨hhint, hblocked⟩ := hok.idle (by simp [hs]) hmissr
  have hle := h.books.within.le
  unfold noneCase
  split
  · rename_i hexist
    apply (dpStatusUpdate_meets .hit).bind
    rintro _ rfl
    apply hit_left _ rfl
    · intro hempty
      exact absurd hempty (h.status_ne_empty hexist)
    · apply h.hit { dp with status := .hit } s.evictionHint hdp hmissr rfl rfl hhint hblocked
        (by simp [hhint])
  · rename_i hmiss
    have hnew : (s.gtd dp.page).privateData = false := by
      rw [← hpage]
      simpa [exist] using hmiss
    rw [hpage]
    split
    · use ⟨h.books, h.flow.taken⟩, dp, hdp, by simp [hs], hmissr
    · rename_i hget
      dsimp only
      apply (meets_require (by decide)).bind
      intro _ _
      split
      · apply (dpStatusUpdate_meets .missr).bind
        rintro _ rfl
        apply h.wait { dp with status := .missr, nowEvictionHint := 0, blocked := true }
          s.evictionHint hdp hmissr rfl rfl rfl rfl (by simp [hhint])
      · rename_i hfly
        apply (isNeededEviction_meets hle).bind
        rintro x (rfl | ⟨rfl, hne, hfull⟩ | ⟨rfl, hroom⟩)
        · apply h.same hdp (by rw [← hhint])
        · simp only [missWith]
          split
          · rename_i hhints
            simp only [isEvictionHintFull, decide_eq_true_eq] at hhints
            omega
          · apply evictionPath_meets h hdp hs hpage hne hget
        · apply coldMiss_meets h hdp hs hpage hnew hfly hget hroom

/-- `cache_traverse_state`. -/
theorem cacheTraverseState_meets (h : Sound none none s) (hdp : s.reqs seq = some dp)
    (hblocked : dp.blocked = false) (hpage : getGtdIdx lba = dp.page) :
  Meets NotFull (Left seq) (s.cacheTraverseState mapPpa seq dp lba ppa)
  := by
  unfold cacheTraverseState
  cases hs : dp.status with
  | evictionw => apply evictionw_meets h hdp hs hpage
  | none => apply noneCase_meets h hdp hs hpage
  | hit => cases (h.flow.params seq dp hdp).hit hs
  | missr =>
      rw [hpage]
      apply coarseTypePending_meets h hdp hs hblocked
  | evictionr => use nofun, nofun

/-! ### Requests -/

theorem Answered.served (h : Answered seq s) :
  Sound none none (s.finish seq) ∧ ∀ (dp : DemandParam) {target : List (ℕ × ℕ)}, target ≠ [] →
    Sound none none (s.setReq seq (dp.dpInitialize target))
  := by
  obtain ⟨hsound, dp, hdp, hevict, hmissr⟩ := h
  obtain ⟨hhint, -⟩ := (hsound.flow.params seq dp hdp).idle hevict hmissr
  have hfree : ∀ g, seq ∉ (s.gtd g).pendingReq := by
    apply hsound.flow.notMem
    intro dp' hdp'
    rw [hdp] at hdp'
    cases hdp'
    apply hmissr
  use (hsound.finish (.inr rfl) hdp hhint hfree).sound
  intro dp' target htarget
  apply (hsound.initialized (.inr rfl) hdp hhint hfree htarget).sound

/-- The loop of `demand_map_assign`. -/
theorem assignLoop_meets {l : List (ℕ × ℕ)} :
  ∀ {s : CoarseMap} {dp : DemandParam}, Sound none none s → s.reqs seq = some dp →
    dp.blocked = false → dp.target = l →
    Meets NotFull (Sound none none) (assignLoop mapPpa seq l s)
  := by
  induction l with
  | nil =>
      intro s dp h hdp _ htarget
      exact absurd htarget (h.flow.params seq dp hdp).target
  | cons x rest ih =>
      intro s dp h hdp hblocked htarget
      obtain ⟨lba, ppa⟩ := x
      have hpage : getGtdIdx lba = dp.page := by
        rw [DemandParam.page, htarget]
        rfl
      unfold assignLoop
      rw [hdp]
      apply (cacheTraverseState_meets h hdp hblocked hpage).bind
      rintro ⟨s', res⟩ hleft
      cases res with
      | done =>
          obtain ⟨hfinish, hinit⟩ := Answered.served hleft
          cases rest with
          | nil =>
              have heq : (s'.setReq seq (dp.dpInitialize [])).finish seq = s'.finish seq := by
                simp [CoarseMap.setReq, CoarseMap.finish]
              change Sound none none ((s'.setReq seq (dp.dpInitialize [])).finish seq)
              rw [heq]
              apply hfinish
          | cons y rest =>
              apply ih (hinit dp (List.cons_ne_nil y rest)) (Function.update_self ..) rfl rfl
      | notFound => use nofun, nofun
      | mapReadIssue => apply hleft
      | flyingHit => apply hleft
      | retry => apply hleft
      | mapWrite => apply hleft
      | missStatusDone => apply hleft

theorem call_meets (h : Sound none none s) (hdp : s.reqs seq = some dp)
    (hblocked : dp.blocked = false) :
  Meets NotFull (Sound none none) (s.call mapPpa seq dp)
  := by
  unfold call
  split
  · apply (meets_orThrow fun _ => by decide).bind
    rintro ⟨lba, ppa⟩ hhead
    have hpage : getGtdIdx lba = dp.page := by
      rw [DemandParam.page, List.headD_eq_head?_getD, hhead]
      rfl
    apply (cacheTraverseState_meets h hdp hblocked hpage).bind
    rintro ⟨s', res⟩ hleft
    cases res with
    | done => apply (Answered.served hleft).1
    | notFound => apply (Answered.served hleft).1
    | mapReadIssue => apply hleft
    | flyingHit => apply hleft
    | retry => apply hleft
    | mapWrite => apply hleft
    | missStatusDone => apply hleft
  · apply assignLoop_meets h hdp hblocked rfl

/-- A new request. -/
theorem issue_meets {type : ReqType} {target : List (ℕ × ℕ)} (h : Sound none none s) :
  Meets NotFull (Sound none none) (s.issue mapPpa seq type target)
  := by
  apply (meets_require (by decide)).bind
  rintro _ ⟨hseq, htarget⟩
  have hnone : ∀ dp, s.reqs seq ≠ some dp := by
    intro dp hdp
    apply hseq (h.books.mem hdp)
  refine call_meets ⟨h.books.issue hseq rfl, ?_⟩ (Function.update_self ..) rfl
  apply h.flow.setReq (h.flow.notMem fun dp hdp => absurd hdp (hnone dp)) (fun _ _ hc => hc)
  change DemandParam.Ok _ _ _ _ _ (DemandParam.dpInitialize ⟨type, target, .none, 0, false⟩ target)
  apply DemandParam.ok_idle htarget

theorem step_meets (h : Sound none none s) (op : CoarseOp) :
  Meets NotFull (Sound none none) (s.step op)
  := by
  cases op with
  | assign seq pairs mapPpa => apply issue_meets h
  | remove seq lba mapPpa => apply issue_meets h
  | read seq lba mapPpa => apply issue_meets h
  | resume seq mapPpa =>
      apply (meets_orThrow fun _ => by decide).bind
      intro dp hdp
      apply (meets_require (by decide)).bind
      intro _ hblocked
      apply call_meets h hdp hblocked
  | updateEntryGc lba ppa =>
      simp only [step]
      split
      · rename_i hexist
        apply (updateEntryWith_meets h h.books.within.nonneg ?_).bind
        · rintro ⟨s', old⟩ ⟨hs', -⟩
          apply hs'
        · intro hempty
          exact absurd hempty (h.status_ne_empty hexist)
      · apply h
  | moveMap gtdIdx mapPpa =>
      simp only [step]
      split
      · apply h
      · apply h.writeUpdatedMap

theorem sound_init (maxCachingPage : ℕ) :
  Sound none none (init maxCachingPage)
  := by
  refine ⟨⟨List.nodup_nil, ?_, rfl, ⟨List.nodup_nil, rfl, ?_⟩, ?_⟩, ⟨?_, ?_, ?_, ?_⟩⟩
  · simp [init]
  · simp [init]
  · simp [init]
  · simp [init]
  · simp [init]
  · simp [init]
  · simp [init]

/-- In every run the cache counts the pages of its LRU list, which are those of the directory with
a node, the hint is the sum of the places that the requests have, and both together are within
the size of the cache, so that no run ends with an overflow. -/
theorem occupancy_run (maxCachingPage : ℕ) (ops : List CoarseOp) :
  Meets (fun e => e ≠ .cachingOverflow ∧ e ≠ .cachingBigger)
    (fun s => s.nowCachingPage = s.lru.length ∧
      s.nowCachingPage = {gtdIdx | (s.gtd gtdIdx).privateData = true}.ncard ∧
      s.evictionHint = (s.allNowReq.map (hintOf s.reqs)).sum ∧
      (s.nowCachingPage : ℤ) + s.evictionHint ≤ s.maxCachingPage)
    (run step (init maxCachingPage) ops)
  := by
  apply (meets_run (fun s op hs _ => step_meets hs op) (sound_init maxCachingPage)
    (guarded_true _ ops)).mono
  intro s h
  refine ⟨h.books.now, ?_, h.books.within.reserved_eq, h.books.within.le⟩
  have hset : {gtdIdx | (s.gtd gtdIdx).privateData = true} = (s.lru.toFinset : Set ℕ) := by
    ext gtdIdx
    simp [h.books.mem_lru]
  rw [hset, Set.ncard_coe_finset, List.toFinset_card_of_nodup h.books.lru_nodup, h.books.now]

end CoarseMap

end AppL
