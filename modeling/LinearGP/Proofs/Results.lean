import Mathlib
import LinearGP.Failure

/-!
# Results of computations

A computation either succeeds or fails, and a computation on a state ends in a state either way.
`Keeps` says that a computation keeps an invariant of its state.  `SameResult` relates two
computations that both succeed or both fail, with the same failure, and `SameEnd` does so for
computations on states, whose end states are related as well.  All three pass through sequencing, so
that runs are followed and compared step by step.
-/

set_option autoImplicit false

namespace LinearGP

variable {ε α β γ δ σ τ : Type}

/-! ## Computations with a result -/

/-- Both succeed with related results, or both fail with the same failure. -/
inductive SameResult (R : α → β → Prop) : Except ε α → Except ε β → Prop
  | ok {a : α} {b : β} (h : R a b) : SameResult R (.ok a) (.ok b)
  | error (failure : ε) : SameResult R (.error failure) (.error failure)

/-- What is done next keeps two runs alike when it does so from related results. -/
theorem SameResult.bind {R : α → β → Prop} {R' : γ → δ → Prop} {x : Except ε α} {y : Except ε β}
    (h : SameResult R x y) {f : α → Except ε γ} {g : β → Except ε δ}
    (hnext : ∀ a b, R a b → SameResult R' (f a) (g b)) : SameResult R' (x >>= f) (y >>= g) := by
  cases h with
  | ok hab => exact hnext _ _ hab
  | error failure => exact .error failure

/-- A computation that succeeds has a result. -/
theorem exists_eq_ok {x : Except ε α} (h : x.isOk = true) : ∃ a, x = .ok a := by
  cases x with
  | error failure => simp [Except.isOk, Except.toBool] at h
  | ok a => exact ⟨a, rfl⟩

/-- A sequence succeeds when both parts do. -/
theorem bind_eq_ok_iff {x : Except ε α} {f : α → Except ε β} {b : β} :
    x >>= f = .ok b ↔ ∃ a, x = .ok a ∧ f a = .ok b := by
  cases x with
  | error failure => simp [bind, Except.bind]
  | ok a => simp [bind, Except.bind]

/-- Folds over the same list are alike when their steps are. -/
theorem SameResult.foldlM {R : α → β → Prop} {f : α → γ → Except ε α} {g : β → γ → Except ε β}
    (hstep : ∀ a b c, R a b → SameResult R (f a c) (g b c)) (l : List γ) {a : α} {b : β}
    (h : R a b) : SameResult R (l.foldlM f a) (l.foldlM g b) := by
  induction l generalizing a b with
  | nil => exact .ok h
  | cons c l ih =>
      rw [List.foldlM_cons, List.foldlM_cons]
      exact (hstep a b c h).bind fun a b hab => ih hab

/-- What the steps of a fold keep, the fold keeps. -/
theorem foldlM_preserves (good : α → Prop) {f : α → γ → Except ε α}
    (hstep : ∀ a c b, good a → f a c = .ok b → good b) (l : List γ) {a b : α} (ha : good a)
    (h : l.foldlM f a = .ok b) : good b := by
  induction l generalizing a with
  | nil =>
      injection h with h
      exact h ▸ ha
  | cons c l ih =>
      rw [List.foldlM_cons] at h
      cases hc : f a c with
      | error failure => simp [hc, bind, Except.bind] at h
      | ok next =>
          simp only [hc, bind, Except.bind] at h
          exact ih (hstep a c next ha hc) h

/-- A fold succeeds when its steps do, from all that is known of their results. -/
theorem exists_foldlM_eq_ok (good : α → Prop) {f : α → γ → Except ε α} {l : List γ}
    (hstep : ∀ c ∈ l, ∀ a, good a → ∃ b, f a c = .ok b ∧ good b) {a : α} (ha : good a) :
    ∃ b, l.foldlM f a = .ok b := by
  induction l generalizing a with
  | nil => exact ⟨a, rfl⟩
  | cons c l ih =>
      obtain ⟨next, hnext, hgood⟩ := hstep c (by simp) a ha
      obtain ⟨b, hb⟩ := ih (fun c' hc => hstep c' (List.mem_cons_of_mem _ hc)) hgood
      refine ⟨b, ?_⟩
      rw [List.foldlM_cons, hnext]
      exact hb

/-- A loop over numbers succeeds when its steps do, with what is known after as many of them. -/
theorem exists_foldlM_range (good : Nat → α → Prop) {f : α → Nat → Except ε α} {n : Nat}
    (hstep : ∀ i < n, ∀ a, good i a → ∃ b, f a i = .ok b ∧ good (i + 1) b) {a : α} (ha : good 0 a) :
    ∃ b, (List.range n).foldlM f a = .ok b ∧ good n b := by
  induction n with
  | zero => exact ⟨a, rfl, ha⟩
  | succ n ih =>
      obtain ⟨b, hb, hgood⟩ := ih fun i hi => hstep i (Nat.lt_succ_of_lt hi)
      obtain ⟨c, hc, hend⟩ := hstep n (Nat.lt_succ_self n) b hgood
      refine ⟨c, ?_, hend⟩
      rw [List.range_succ, List.foldlM_append, hb]
      show (f b n >>= pure) = _
      rw [bind_pure, hc]

/-- A loop that appends a list at every step appends all of them. -/
theorem foldlM_append_eq_ok {f : Array α → β → Except ε (Array α)} {g : β → List α} {l : List β}
    (h : ∀ b ∈ l, ∀ a, f a b = .ok (a ++ (g b).toArray)) (a : Array α) :
    l.foldlM f a = .ok (a ++ (l.flatMap g).toArray) := by
  induction l generalizing a with
  | nil => simp [pure, Except.pure]
  | cons b l ih =>
      rw [List.foldlM_cons, h b List.mem_cons_self]
      show l.foldlM f (a ++ (g b).toArray) = _
      rw [ih fun b hb => h b (List.mem_cons_of_mem _ hb)]
      simp

/-! ## Lists of results -/

/-- A pass over a list succeeds with the results for its elements. -/
theorem mapM_eq_ok_iff {f : α → Except ε β} {l : List α} {results : List β} :
    l.mapM f = .ok results ↔ List.Forall₂ (fun a b => f a = .ok b) l results := by
  induction l generalizing results with
  | nil => cases results <;> simp [pure, Except.pure]
  | cons a l ih =>
      rw [List.mapM_cons]
      cases ha : f a with
      | error failure =>
          cases results <;> simp [bind, Except.bind, ha]
      | ok b =>
          cases hl : l.mapM f with
          | error failure =>
              cases results with
              | nil => simp [bind, Except.bind]
              | cons b' others =>
                  have hothers := @ih others
                  rw [hl] at hothers
                  simpa [bind, Except.bind, ha] using fun _ => hothers
          | ok found =>
              cases results with
              | nil => simp [bind, Except.bind, pure, Except.pure]
              | cons b' others =>
                  have hothers := @ih others
                  rw [hl, Except.ok.injEq] at hothers
                  simp [bind, Except.bind, pure, Except.pure, ha, hothers]

/-- A pass succeeds when there is a result for every element. -/
theorem mapM_eq_ok_map {f : α → Except ε β} {g : α → β} {l : List α}
    (h : ∀ a ∈ l, f a = .ok (g a)) : l.mapM f = .ok (l.map g) :=
  mapM_eq_ok_iff.mpr (List.forall₂_map_right_iff.mpr (List.forall₂_same.mpr h))

/-- A pass gives one result for each element. -/
theorem length_of_mapM_eq_ok {f : α → Except ε β} {l : List α} {results : List β}
    (h : l.mapM f = .ok results) : results.length = l.length :=
  (mapM_eq_ok_iff.mp h).length_eq.symm

/-- When a pass succeeds, there is a result for every element. -/
theorem exists_of_mapM_eq_ok {f : α → Except ε β} {l : List α} {results : List β}
    (h : l.mapM f = .ok results) {a : α} (ha : a ∈ l) : ∃ b, f a = .ok b := by
  have hforall := mapM_eq_ok_iff.mp h
  obtain ⟨i, hi, rfl⟩ := List.mem_iff_getElem.mp ha
  exact ⟨_, hforall.get hi (hforall.length_eq ▸ hi)⟩

/-- A pass succeeds when each of its elements does. -/
theorem exists_mapM_eq_ok {f : α → Except ε β} {l : List α}
    (h : ∀ a ∈ l, ∃ b, f a = .ok b) : ∃ results, l.mapM f = .ok results := by
  induction l with
  | nil => exact ⟨[], rfl⟩
  | cons a l ih =>
      obtain ⟨b, hb⟩ := h a (by simp)
      obtain ⟨found, hfound⟩ := ih fun a ha => h a (List.mem_cons_of_mem _ ha)
      exact ⟨b :: found, mapM_eq_ok_iff.mpr (.cons hb (mapM_eq_ok_iff.mp hfound))⟩

/-- When a pass fails, it is with the failure of one of its elements. -/
theorem exists_of_mapM_eq_error {f : α → Except ε β} {l : List α} {failure : ε}
    (h : l.mapM f = .error failure) : ∃ a ∈ l, f a = .error failure := by
  induction l with
  | nil => cases h
  | cons a l ih =>
      rw [List.mapM_cons] at h
      cases ha : f a with
      | error failed =>
          rw [ha] at h
          injection h with h
          exact ⟨a, by simp, by rw [ha, h]⟩
      | ok b =>
          rw [ha] at h
          cases hl : l.mapM f with
          | error failed =>
              rw [hl] at h
              injection h with h
              obtain ⟨a', hmem, ha'⟩ := ih (h ▸ hl)
              exact ⟨a', List.mem_cons_of_mem _ hmem, ha'⟩
          | ok results =>
              rw [hl] at h
              cases h

/-- Passes are equal when they do the same to each element. -/
theorem mapM_congr_left {f g : α → Except ε β} {l : List α} (h : ∀ a ∈ l, f a = g a) :
    l.mapM f = l.mapM g := by
  induction l with
  | nil => rfl
  | cons a l ih =>
      rw [List.mapM_cons, List.mapM_cons, h a (by simp),
        ih fun a ha => h a (List.mem_cons_of_mem _ ha)]

/-- What is done to every result can be done to all of them in the end. -/
theorem mapM_except_map {f : α → Except ε β} (g : β → γ) (l : List α) :
    (l.mapM fun a => (f a).map g) = (l.mapM f).map (List.map g) := by
  induction l with
  | nil => rfl
  | cons a l ih =>
      rw [List.mapM_cons, List.mapM_cons, ih]
      cases f a with
      | error failure => rfl
      | ok b => cases l.mapM f <;> rfl

/-- A pass over joined lists is a pass over each of them. -/
theorem mapM_flatMap {f : β → Except ε γ} (g : α → List β) (l : List α) :
    (l.flatMap g).mapM f = (l.mapM fun a => (g a).mapM f).map List.flatten := by
  induction l with
  | nil => rfl
  | cons a l ih =>
      rw [List.flatMap_cons, List.mapM_append, List.mapM_cons, ih]
      cases (g a).mapM f with
      | error failure => rfl
      | ok first => cases l.mapM fun a => (g a).mapM f <;> rfl

/-- A fold whose steps all succeed is a plain fold. -/
theorem foldlM_eq_ok {f : α → γ → Except ε α} {g : α → γ → α} {l : List γ}
    (h : ∀ c ∈ l, ∀ a, f a c = .ok (g a c)) (a : α) : l.foldlM f a = .ok (l.foldl g a) := by
  induction l generalizing a with
  | nil => rfl
  | cons c l ih =>
      rw [List.foldlM_cons, h c (by simp), List.foldl_cons]
      exact ih (fun c' hc a => h c' (List.mem_cons_of_mem _ hc) a) (g a c)

/-! ## Computations on a state -/

/-- A computation with a failure as its outcome ends in its end state. -/
theorem eq_error_of_outcome {x : EStateM.Result ε σ α} {failure : ε}
    (h : outcome x = .error failure) : x = .error failure (endState x) := by
  cases x with
  | ok a s => cases h
  | error failed s =>
      injection h with h
      rw [h]
      rfl

/-- What is done next starts where the first computation succeeded. -/
theorem bind_of_eq_ok {x : EStateM ε σ α} {s t : σ} {a : α} (h : x s = .ok a t)
    (f : α → EStateM ε σ β) : (x >>= f) s = f a t := by
  show EStateM.bind x f s = f a t
  unfold EStateM.bind
  rw [h]

/-- Nothing more is done once the first computation failed. -/
theorem bind_of_eq_error {x : EStateM ε σ α} {s t : σ} {failure : ε} (h : x s = .error failure t)
    (f : α → EStateM ε σ β) : (x >>= f) s = .error failure t := by
  show EStateM.bind x f s = _
  unfold EStateM.bind
  rw [h]

/-- A change of the state always succeeds. -/
theorem modify_bind (f : σ → σ) (g : PUnit → EStateM ε σ β) (s : σ) :
    ((modify f : EStateM ε σ PUnit) >>= g) s = g ⟨⟩ (f s) := rfl

/-- A sequence succeeds when both parts do, the second from where the first one ends. -/
theorem bind_run_eq_ok_iff {x : EStateM ε σ α} {f : α → EStateM ε σ β} {b : β} {s u : σ} :
    (x >>= f) s = .ok b u ↔ ∃ a t, x s = .ok a t ∧ f a t = .ok b u := by
  show EStateM.bind x f s = .ok b u ↔ _
  unfold EStateM.bind
  cases x s with
  | ok a t => simp
  | error failure t => simp

/-- A sequence ends where its second part does, or its first part if that fails. -/
theorem endState_bind (x : EStateM ε σ α) (f : α → EStateM ε σ β) (s : σ) :
    endState ((x >>= f) s) =
      match x s with
      | .ok a t => endState (f a t)
      | .error _ t => t := by
  show endState (EStateM.bind x f s) = _
  unfold EStateM.bind
  cases x s <;> rfl

/-- Returning a result changes no state. -/
theorem endState_bind_pure (x : EStateM ε σ α) (f : α → β) (s : σ) :
    endState ((x >>= fun a => pure (f a)) s) = endState (x s) := by
  rw [endState_bind]
  cases x s <;> rfl

/-- An invariant of the state is kept, whether the computation succeeds or fails. -/
def Keeps (good : σ → Prop) (x : EStateM ε σ α) : Prop := ∀ s, good s → good (endState (x s))

/-- An invariant that is kept holds after a success. -/
theorem Keeps.of_eq_ok {good : σ → Prop} {x : EStateM ε σ α} (hx : Keeps good x) {s t : σ} {a : α}
    (hs : good s) (h : x s = .ok a t) : good t := by
  have ht := hx s hs
  rw [h] at ht
  exact ht

/-- A sequence keeps what both parts keep. -/
theorem Keeps.bind {good : σ → Prop} {x : EStateM ε σ α} (hx : Keeps good x) {f : α → EStateM ε σ β}
    (hf : ∀ a, Keeps good (f a)) : Keeps good (x >>= f) := by
  intro s hs
  have hfirst := hx s hs
  rw [endState_bind]
  cases hrun : x s with
  | ok a t =>
      rw [hrun] at hfirst
      exact hf a t hfirst
  | error failure t =>
      rw [hrun] at hfirst
      exact hfirst

/-- A result alone keeps everything. -/
theorem Keeps.pure {good : σ → Prop} (a : α) : Keeps good (Pure.pure a : EStateM ε σ α) := by
  intro s hs
  exact hs

/-- What is done to a result does not matter to an invariant. -/
theorem Keeps.map {good : σ → Prop} {x : EStateM ε σ α} (hx : Keeps good x) (f : α → β) :
    Keeps good (f <$> x) :=
  hx.bind fun a => Keeps.pure (f a)

/-- Both succeed with the same result or both fail with the same failure, in related states. -/
inductive SameEnd (R : σ → τ → Prop) : EStateM.Result ε σ α → EStateM.Result ε τ α → Prop
  | ok (a : α) {s : σ} {t : τ} (h : R s t) : SameEnd R (.ok a s) (.ok a t)
  | error (failure : ε) {s : σ} {t : τ} (h : R s t) : SameEnd R (.error failure s) (.error failure t)

/-- Runs that end alike have the same outcome. -/
theorem SameEnd.outcome_eq {R : σ → τ → Prop} {x : EStateM.Result ε σ α} {y : EStateM.Result ε τ α}
    (h : SameEnd R x y) : outcome x = outcome y := by
  cases h <;> rfl

/-- Runs that end alike have related end states. -/
theorem SameEnd.endState {R : σ → τ → Prop} {x : EStateM.Result ε σ α} {y : EStateM.Result ε τ α}
    (h : SameEnd R x y) : R (endState x) (endState y) := by
  cases h <;> assumption

/-- What is done next keeps two runs alike when it does so from related states. -/
theorem SameEnd.bind {R : σ → τ → Prop} {x : EStateM ε σ α} {y : EStateM ε τ α} {s : σ} {t : τ}
    (h : SameEnd R (x s) (y t)) {f : α → EStateM ε σ β} {g : α → EStateM ε τ β}
    (hnext : ∀ a s t, R s t → SameEnd R (f a s) (g a t)) :
    SameEnd R ((x >>= f) s) ((y >>= g) t) := by
  show SameEnd R (EStateM.bind x f s) (EStateM.bind y g t)
  unfold EStateM.bind
  generalize x s = first at h ⊢
  generalize y t = second at h ⊢
  cases h with
  | ok a hst => exact hnext a _ _ hst
  | error failure hst => exact .error failure hst

/-- Runs still end alike when the same is done to their results. -/
theorem SameEnd.map {R : σ → τ → Prop} {x : EStateM ε σ α} {y : EStateM ε τ α} {s : σ} {t : τ}
    (h : SameEnd R (x s) (y t)) (f : α → β) : SameEnd R ((f <$> x) s) ((f <$> y) t) :=
  h.bind fun a _ _ hst => .ok (f a) hst

end LinearGP
