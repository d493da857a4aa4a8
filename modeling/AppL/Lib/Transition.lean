import Mathlib.Data.List.Basic
import Mathlib.Data.List.Forall2
import Mathlib.Logic.Basic

/-!
# Fallible transition systems

A program that may abort is a computation in `Except ε`.  This module has the inversion
of a successful sequence of computations, the runs of a fallible step function, and the
rule that carries an invariant along a run all of whose steps satisfy a guard.
-/

namespace Transition

universe u v

variable {ε : Type v} {σ α β : Type u}

/-! ### Successful computations -/

/-- A sequence of two computations succeeds exactly when both do, one after the other. -/
theorem bind_eq_ok {x : Except ε α} {f : α → Except ε β} {b : β} :
  x >>= f = .ok b ↔ ∃ a, x = .ok a ∧ f a = .ok b
  := by
  cases x with
  | error e => simp [bind, Except.bind]
  | ok a => simp [bind, Except.bind]

/-- Two computations agree after `x` when they agree on its result. -/
theorem bind_congr_ok {x : Except ε α} {f g : α → Except ε β} (h : ∀ a, x = .ok a → f a = g a) :
  x >>= f = x >>= g
  := by
  cases x with
  | error e => rfl
  | ok a => apply h a rfl

/-- A sequence of two computations fails with the error of the first one. -/
theorem fails_left {x : Except ε α} {f : α → Except ε β} {e : ε} (h : x = .error e) :
  x >>= f = .error e
  := by
  rw [h]
  rfl

/-- A sequence of two computations fails with the error of the second one. -/
theorem fails_right {x : Except ε α} {f : α → Except ε β} {a : α} {e : ε} (h : x = .ok a)
    (hf : f a = .error e) :
  x >>= f = .error e
  := by
  rw [h]
  apply hf

/-- What is known of the result of a computation. -/
theorem map_eq_ok {x : Except ε α} {f : α → β} {b : β} (h : x.map f = .ok b) :
  ∃ a, x = .ok a ∧ f a = b
  := by
  cases x with
  | error e => cases h
  | ok a => use a, rfl, Except.ok.inj h

/-- What is known of the error of a computation. -/
theorem map_eq_error {x : Except ε α} {f : α → β} {e : ε} (h : x.map f = .error e) :
  x = .error e
  := by
  cases x with
  | error e' => rw [Except.error.inj h]
  | ok a => cases h

/-- A guard that raises `e` unless `p` holds. -/
def require (e : ε) (p : Prop) [Decidable p] : Except ε Unit :=
  if p then .ok () else .error e

theorem require_eq_ok {e : ε} {p : Prop} [Decidable p] {u : Unit} :
  require e p = .ok u ↔ p
  := by
  unfold require
  split
  · simpa
  · simpa

/-- The value of an option, or the error `e` when there is none. -/
def orThrow (e : ε) : Option α → Except ε α
  | some a => .ok a
  | none => .error e

theorem orThrow_eq_ok {e : ε} {x : Option α} {a : α} :
  orThrow e x = .ok a ↔ x = some a
  := by
  cases x with
  | none => simp [orThrow]
  | some b => simp [orThrow]

/-- An invariant of the loop body, indexed by the elements still to be processed, holds
after a successful loop over a list. -/
theorem foldlM_invariant {f : σ → α → Except ε σ} (I : List α → σ → Prop)
    (step : ∀ a l s s', I (a :: l) s → f s a = .ok s' → I l s') :
  ∀ {l : List α} {s s' : σ}, I l s → l.foldlM f s = .ok s' → I [] s'
  := by
  intro l
  induction l with
  | nil =>
      intro s s' hI h
      cases h
      apply hI
  | cons a l ih =>
      intro s s' hI h
      rw [List.foldlM_cons, bind_eq_ok] at h
      obtain ⟨s₁, h₁, h₂⟩ := h
      apply ih (step a l s s₁ hI h₁) h₂

/-- Two loops over a list are the same when their bodies do the same on an invariant that is
indexed by the elements still to be processed. -/
theorem foldlM_congr_invariant {f h : σ → α → Except ε σ} (I : List α → σ → Prop)
    (same : ∀ a l s, I (a :: l) s → f s a = h s a)
    (step : ∀ a l s s', I (a :: l) s → h s a = .ok s' → I l s') :
  ∀ {l : List α} {s : σ}, I l s → l.foldlM f s = l.foldlM h s
  := by
  intro l
  induction l with
  | nil =>
      intro s _
      rfl
  | cons a l ih =>
      intro s hI
      rw [List.foldlM_cons, List.foldlM_cons, same a l s hI]
      apply bind_congr_ok
      intro s' hs'
      apply ih (step a l s s' hI hs')

/-- A successful computation over a list gives a result for every element. -/
theorem mapM_eq_ok {f : α → Except ε β} :
  ∀ {l : List α} {l' : List β}, l.mapM f = .ok l' →
    List.Forall₂ (fun a b => f a = .ok b) l l'
  := by
  intro l
  induction l with
  | nil =>
      intro l' h
      cases h
      exact .nil
  | cons a l ih =>
      intro l' h
      rw [List.mapM_cons, bind_eq_ok] at h
      obtain ⟨b, hb, h⟩ := h
      rw [bind_eq_ok] at h
      obtain ⟨bs, hbs, hret⟩ := h
      cases hret
      exact .cons hb (ih hbs)

/-! ### Outcomes -/

/-- The computation fails with errors of `E` only, and otherwise its result is in `Q`. -/
def Meets (E : ε → Prop) (Q : α → Prop) : Except ε α → Prop
  | .ok a => Q a
  | .error e => E e

section Meets

variable {E : ε → Prop} {Q : α → Prop} {R : β → Prop} {x : Except ε α} {f : α → Except ε β}

theorem Meets.bind (hx : Meets E Q x) (hf : ∀ a, Q a → Meets E R (f a)) :
  Meets E R (x >>= f)
  := by
  cases x with
  | error e => apply hx
  | ok a => apply hf a hx

theorem Meets.mono {Q' : α → Prop} (hx : Meets E Q x) (h : ∀ a, Q a → Q' a) :
  Meets E Q' x
  := by
  cases x with
  | error e => apply hx
  | ok a => apply h a hx

theorem Meets.of_ok {a : α} (hx : Meets E Q x) (h : x = .ok a) :
  Q a
  := by
  subst h
  apply hx

/-- What is known of a result on its own. -/
theorem Meets.with_ok {Q' : α → Prop} (hx : Meets E Q x) (h : ∀ a, x = .ok a → Q' a) :
  Meets E (fun a => Q a ∧ Q' a) x
  := by
  cases x with
  | error e => apply hx
  | ok a => use hx, h a rfl

/-- What is known of the errors and the results together. -/
theorem Meets.and {E' : ε → Prop} {Q' : α → Prop} (hx : Meets E Q x) (h : Meets E' Q' x) :
  Meets (fun e => E e ∧ E' e) (fun a => Q a ∧ Q' a) x
  := by
  cases x with
  | error e => use hx, h
  | ok a => use hx, h

/-- More errors are allowed. -/
theorem Meets.of_errors {E' : ε → Prop} (hx : Meets E Q x) (h : ∀ e, E e → E' e) :
  Meets E' Q x
  := by
  cases x with
  | error e => apply h e hx
  | ok a => apply hx

/-- A computation that is known to succeed. -/
theorem meets_of_eq {a : α} (h : x = .ok a) :
  Meets E (fun b => b = a) x
  := by
  rw [h]
  rfl

theorem meets_require {e : ε} {p : Prop} [Decidable p] (he : E e) :
  Meets E (fun _ => p) (require e p)
  := by
  unfold require
  split
  · assumption
  · apply he

theorem meets_orThrow {e : ε} {y : Option α} (he : ¬ y.isSome → E e) :
  Meets E (fun a => y = some a) (orThrow e y)
  := by
  cases y with
  | none => apply he (by simp)
  | some a => rfl

/-- The rule for loops over a list: an invariant that every turn keeps. -/
theorem meets_foldlM {h : σ → α → Except ε σ} (I : σ → Prop) {l : List α} :
  ∀ {s : σ}, (∀ a ∈ l, ∀ s, I s → Meets E I (h s a)) → I s → Meets E I (l.foldlM h s)
  := by
  induction l with
  | nil =>
      intro s _ hs
      apply hs
  | cons a l ih =>
      intro s hstep hs
      rw [List.foldlM_cons]
      apply (hstep a List.mem_cons_self s hs).bind
      intro s' hs'
      apply ih _ hs'
      intro b hb
      apply hstep b (List.mem_cons_of_mem a hb)

/-- The rule for loops over a list, with an invariant of the elements still to be processed. -/
theorem meets_foldlM_rest {h : σ → α → Except ε σ} (I : List α → σ → Prop)
    (step : ∀ a l s, I (a :: l) s → Meets E (I l) (h s a)) {l : List α} :
  ∀ {s : σ}, I l s → Meets E (I []) (l.foldlM h s)
  := by
  induction l with
  | nil =>
      intro s hs
      apply hs
  | cons a l ih =>
      intro s hs
      rw [List.foldlM_cons]
      apply (step a l s hs).bind
      intro s' hs'
      apply ih hs'

theorem meets_mapM_all {g : α → Except ε β} {l : List α} (h : ∀ a ∈ l, Meets E R (g a)) :
  Meets E (fun l' => ∀ b ∈ l', R b) (l.mapM g)
  := by
  induction l with
  | nil => exact nofun
  | cons a l ih =>
      rw [List.mapM_cons]
      apply (h a List.mem_cons_self).bind
      intro b hb
      apply (ih fun x hx => h x (List.mem_cons_of_mem a hx)).bind
      intro l' hl' c hc
      rcases List.mem_cons.mp hc with rfl | hc
      · apply hb
      · apply hl' c hc

theorem meets_mapM {g : α → Except ε β} {l : List α}
    (h : ∀ a ∈ l, Meets E (fun _ => True) (g a)) :
  Meets E (fun _ => True) (l.mapM g)
  := (meets_mapM_all h).mono fun _ _ => trivial

end Meets

/-! ### Runs -/

section Runs

variable (step : σ → α → Except ε σ)

/-- The state reached from `s` by a list of actions. -/
def run : σ → List α → Except ε σ
  | s, [] => .ok s
  | s, a :: l => step s a >>= fun s' => run s' l

/-- Every action of the list is taken in a state where the guard `G` holds of it. -/
def Guarded (G : σ → α → Prop) : σ → List α → Prop
  | _, [] => True
  | s, a :: l => G s a ∧
      match step s a with
      | .ok s' => Guarded G s' l
      | .error _ => True

/-- A run can be checked for its guard by running it. -/
instance decidableGuarded (G : σ → α → Prop) [∀ s a, Decidable (G s a)] :
    ∀ (s : σ) (l : List α), Decidable (Guarded step G s l)
  | _, [] => isTrue trivial
  | s, a :: l =>
      match h : step s a with
      | .ok s' =>
          have := decidableGuarded G s' l
          decidable_of_iff (G s a ∧ Guarded step G s' l) (by simp only [Guarded, h])
      | .error _ => decidable_of_iff (G s a) (by simp only [Guarded, h, and_true])

variable {step}

theorem run_cons_eq_ok {s t : σ} {a : α} {l : List α} :
  run step s (a :: l) = .ok t ↔ ∃ s', step s a = .ok s' ∧ run step s' l = .ok t
  := bind_eq_ok

/-- Two runs, one after the other. -/
theorem run_append_eq (s : σ) (l l' : List α) :
  run step s (l ++ l') = run step s l >>= fun t => run step t l'
  := by
  induction l generalizing s with
  | nil => rfl
  | cons a l ih =>
      cases h : step s a with
      | error e =>
          rw [List.cons_append, run, run, h]
          rfl
      | ok s' =>
          rw [List.cons_append, run, run, h]
          apply ih s'

/-- The actions of a list that have the same form, one after the other. -/
theorem foldlM_eq_run {β : Type} (f : β → α) (s : σ) (l : List β) :
  l.foldlM (fun s b => step s (f b)) s = run step s (l.map f)
  := by
  induction l generalizing s with
  | nil => rfl
  | cons b l ih =>
      rw [List.foldlM_cons, List.map_cons, run]
      congr 1
      funext s'
      apply ih s'

/-- A property of histories and states that holds at the start and is kept by every
guarded step holds at the end of every guarded run. -/
theorem run_invariant {G : σ → α → Prop} (I : List α → σ → Prop)
    (keep : ∀ h s a s', I h s → G s a → step s a = .ok s' → I (h ++ [a]) s')
    {l : List α} :
  ∀ {h : List α} {s t : σ}, I h s → Guarded step G s l → run step s l = .ok t → I (h ++ l) t
  := by
  induction l with
  | nil =>
      intro h s t hI _ hr
      cases hr
      simpa using hI
  | cons a l ih =>
      intro h s t hI hG hr
      obtain ⟨s', hs, hr⟩ := run_cons_eq_ok.mp hr
      simp only [Guarded, hs] at hG
      have hI' := keep h s a s' hI hG.1 hs
      have ht := ih hI' hG.2 hr
      simpa using ht

/-- When every guarded step from a state with the property succeeds and keeps it, every guarded
run succeeds. -/
theorem run_progress {G : σ → α → Prop} (I : List α → σ → Prop)
    (keep : ∀ h s a, I h s → G s a → ∃ s', step s a = .ok s' ∧ I (h ++ [a]) s')
    {l : List α} :
  ∀ {h : List α} {s : σ}, I h s → Guarded step G s l → ∃ t, run step s l = .ok t ∧ I (h ++ l) t
  := by
  induction l with
  | nil =>
      intro h s hI _
      refine ⟨s, rfl, ?_⟩
      simpa using hI
  | cons a l ih =>
      intro h s hI hG
      obtain ⟨s', hs, hI'⟩ := keep h s a hI hG.1
      simp only [Guarded, hs] at hG
      obtain ⟨t, ht, hIt⟩ := ih hI' hG.2
      use t, run_cons_eq_ok.mpr ⟨s', hs, ht⟩
      simpa using hIt

/-- An invariant that every guarded step keeps when it succeeds, with the errors it may fail
with, is one of every guarded run. -/
theorem meets_run {G : σ → α → Prop} {E : ε → Prop} {I : σ → Prop}
    (keep : ∀ s a, I s → G s a → Meets E I (step s a)) {l : List α} :
  ∀ {s : σ}, I s → Guarded step G s l → Meets E I (run step s l)
  := by
  induction l with
  | nil =>
      intro s hs _
      apply hs
  | cons a l ih =>
      intro s hs hG
      have hstep := keep s a hs hG.1
      have hrest := hG.2
      cases h : step s a with
      | error e =>
          rw [h] at hstep
          rw [run, h]
          apply hstep
      | ok s' =>
          rw [h] at hstep hrest
          rw [run, h]
          apply ih hstep hrest

/-- The same for an invariant of the history of the run. -/
theorem meets_run_history {E : ε → Prop} (I : List α → σ → Prop)
    (keep : ∀ h s a, I h s → Meets E (I (h ++ [a])) (step s a)) {l : List α} :
  ∀ {h : List α} {s : σ}, I h s → Meets E (I (h ++ l)) (run step s l)
  := by
  induction l with
  | nil =>
      intro h s hs
      rw [List.append_nil]
      apply hs
  | cons a l ih =>
      intro h s hs
      apply (keep h s a hs).bind
      intro s' hs'
      have hrest := ih hs'
      rwa [List.append_assoc, List.singleton_append] at hrest

/-- Two guards of one run together. -/
theorem Guarded.and {G H : σ → α → Prop} {l : List α} :
  ∀ {s : σ}, Guarded step G s l → Guarded step H s l →
    Guarded step (fun s a => G s a ∧ H s a) s l
  := by
  induction l with
  | nil =>
      intro s _ _
      trivial
  | cons a l ih =>
      intro s hG hH
      use ⟨hG.1, hH.1⟩
      have hG' := hG.2
      have hH' := hH.2
      cases hs : step s a with
      | ok s' =>
          rw [hs] at hG' hH'
          apply ih hG' hH'
      | error e => trivial

/-- A weaker guard. -/
theorem Guarded.imp {G H : σ → α → Prop} {l : List α} (h : ∀ s a, G s a → H s a) :
  ∀ {s : σ}, Guarded step G s l → Guarded step H s l
  := by
  induction l with
  | nil =>
      intro s _
      trivial
  | cons a l ih =>
      intro s hG
      use h s a hG.1
      have hG' := hG.2
      cases hs : step s a with
      | ok s' =>
          rw [hs] at hG'
          apply ih hG'
      | error e => trivial

/-- Actions that satisfy the guard in all states. -/
theorem guarded_of_forall {G : σ → α → Prop} {l : List α} (h : ∀ a ∈ l, ∀ s, G s a) (s : σ) :
  Guarded step G s l
  := by
  induction l generalizing s with
  | nil => trivial
  | cons a l ih =>
      use h a List.mem_cons_self s
      split
      · apply ih
        intro b hb
        apply h b (List.mem_cons_of_mem a hb)
      · trivial

theorem guarded_true (s : σ) (l : List α) :
  Guarded step (fun _ _ => True) s l
  := guarded_of_forall (fun _ _ _ => trivial) s

/-- The invariant rule for runs without a guard. -/
theorem run_history (I : List α → σ → Prop)
    (keep : ∀ h s a s', I h s → step s a = .ok s' → I (h ++ [a]) s')
    {l : List α} {s t : σ} (hI : I [] s) (hr : run step s l = .ok t) :
  I l t
  := run_invariant I (fun h s a s' hI _ => keep h s a s' hI) (h := []) hI (guarded_true s l) hr

/-- The invariant rule for a property of states alone. -/
theorem run_preserves {G : σ → α → Prop} (I : σ → Prop)
    (keep : ∀ s a s', I s → G s a → step s a = .ok s' → I s')
    {l : List α} {s t : σ} (hI : I s) (hG : Guarded step G s l) (hr : run step s l = .ok t) :
  I t
  := run_invariant (fun _ => I) (fun _ => keep) (h := []) hI hG hr

end Runs

end Transition
