import Mathlib.Tactic.Ring

/-!
# Runs of a partial transition function

A system is given by a function `step : σ → ε → Option σ`: the event `e` is
either not enabled in the state `s` (or makes the program fault), which is
`none`, or it leads to exactly one next state.  All nondeterminism sits in the
choice of the events, so a run is a list of events.

* `run` executes a list of events, and `run_append` cuts a run in two.
* `Meets` says that every step of a run satisfies a condition on the state
  before the step and the event; `meets_append` and `Meets.mono` transport it.
* `run_invariant` is the invariant rule and `run_preserves` its version for a step
  that needs no condition, `run_related` the version for a
  reflexive and transitive relation between the first and the last state, and
  `run_total` the rule for "no step of the run can fail".
* `hits` counts the steps of a kind in a run, and `run_hits_add_le` bounds them by a number that
  each of them makes smaller and no other step makes larger.
* `bind_eq_ok` and `bind_eq_error` take a fallible program apart at its first bind.
-/

namespace YoloServer
namespace Lib

variable {σ ε : Type*} {step : σ → ε → Option σ}

/-- Execute the events in order, stopping at the first one that has no step. -/
def run (step : σ → ε → Option σ) : σ → List ε → Option σ
  | s, [] => some s
  | s, e :: es =>
      match step s e with
      | some s' => run step s' es
      | none => none

/-- Every executed step of the run starts in a state, and with an event, for
which `cond` holds. -/
def Meets (step : σ → ε → Option σ) (cond : σ → ε → Prop) : σ → List ε → Prop
  | _, [] => True
  | s, e :: es =>
      cond s e ∧
        match step s e with
        | some s' => Meets step cond s' es
        | none => True

instance Meets.decidable (cond : σ → ε → Prop) [∀ s e, Decidable (cond s e)] :
    ∀ (s : σ) (es : List ε), Decidable (Meets step cond s es)
  | _, [] => inferInstanceAs (Decidable True)
  | s, e :: es =>
      match h : step s e with
      | some s' =>
          have : Decidable (Meets step cond s' es) := Meets.decidable cond s' es
          decidable_of_iff (cond s e ∧ Meets step cond s' es) (by simp only [Meets, h])
      | none => decidable_of_iff (cond s e) (by simp only [Meets, h, and_true])

@[simp] theorem run_nil (s : σ) : run step s [] = some s := rfl

theorem run_cons_of_step {s s' : σ} {e : ε} (h : step s e = some s') (es : List ε) :
    run step s (e :: es) = run step s' es := by
  simp only [run, h]

/-- A run of a nonempty list starts with one step. -/
theorem run_cons {s s'' : σ} {e : ε} {es : List ε}
    (h : run step s (e :: es) = some s'') :
    ∃ s', step s e = some s' ∧ run step s' es = some s'' := by
  cases hs : step s e with
  | none => simp [run, hs] at h
  | some s' =>
      rw [run_cons_of_step hs] at h
      exact ⟨s', rfl, h⟩

theorem run_append {s s' : σ} {es : List ε} (h : run step s es = some s')
    (es' : List ε) : run step s (es ++ es') = run step s' es' := by
  induction es generalizing s with
  | nil =>
      simp only [run_nil, Option.some.injEq] at h
      simp [h]
  | cons e es ih =>
      obtain ⟨t, hstep, hrun⟩ := run_cons h
      rw [List.cons_append, run_cons_of_step hstep]
      exact ih hrun

theorem meets_cons {cond : σ → ε → Prop} {s s' : σ} {e : ε} {es : List ε}
    (hstep : step s e = some s') :
    Meets step cond s (e :: es) ↔ cond s e ∧ Meets step cond s' es := by
  simp only [Meets, hstep]

/-- The condition of the head does not need the step to exist. -/
theorem Meets.head {cond : σ → ε → Prop} {s : σ} {e : ε} {es : List ε}
    (h : Meets step cond s (e :: es)) : cond s e :=
  h.1

theorem meets_append {cond : σ → ε → Prop} {s s' : σ} {es : List ε}
    (h : run step s es = some s') (es' : List ε) :
    Meets step cond s (es ++ es') ↔
      Meets step cond s es ∧ Meets step cond s' es' := by
  induction es generalizing s with
  | nil =>
      simp only [run_nil, Option.some.injEq] at h
      subst h
      simp [Meets]
  | cons e es ih =>
      obtain ⟨t, hstep, hrun⟩ := run_cons h
      rw [List.cons_append, meets_cons hstep, meets_cons hstep, ih hrun, and_assoc]

theorem Meets.mono {cond cond' : σ → ε → Prop}
    (himp : ∀ s e, cond s e → cond' s e) {s : σ} {es : List ε}
    (h : Meets step cond s es) : Meets step cond' s es := by
  induction es generalizing s with
  | nil => trivial
  | cons e es ih =>
      refine ⟨himp s e h.1, ?_⟩
      cases hs : step s e with
      | none => trivial
      | some s' => exact ih ((meets_cons hs).mp h).2

/-- A run meets a condition if the condition holds at each of its steps. -/
theorem meets_of_split {cond : σ → ε → Prop} {s s' : σ} {es : List ε}
    (hrun : run step s es = some s')
    (h : ∀ es₁ e es₂ t t', es = es₁ ++ e :: es₂ → run step s es₁ = some t →
      step t e = some t' → cond t e) : Meets step cond s es := by
  induction es generalizing s with
  | nil => trivial
  | cons e es ih =>
      obtain ⟨t, hstep, hrest⟩ := run_cons hrun
      refine (meets_cons hstep).mpr ⟨h [] e es s t rfl rfl hstep, ih hrest ?_⟩
      intro es₁ e' es₂ u u' hes hrun₁ hu
      exact h (e :: es₁) e' es₂ u u' (by rw [hes, List.cons_append])
        (by rw [run_cons_of_step hstep, hrun₁]) hu

/-- A condition on the events alone is met if it holds of each event. -/
theorem meets_of_forall {cond : ε → Prop} {es : List ε} (h : ∀ e ∈ es, cond e) (s : σ) :
    Meets step (fun _ e => cond e) s es := by
  induction es generalizing s with
  | nil => trivial
  | cons e es ih =>
      refine ⟨h e List.mem_cons_self, ?_⟩
      cases step s e with
      | none => trivial
      | some s' => exact ih (fun e' he' => h e' (List.mem_cons_of_mem _ he')) s'

theorem Meets.and {cond cond' : σ → ε → Prop} {s : σ} {es : List ε}
    (h : Meets step cond s es) (h' : Meets step cond' s es) :
    Meets step (fun s e => cond s e ∧ cond' s e) s es := by
  induction es generalizing s with
  | nil => trivial
  | cons e es ih =>
      refine ⟨⟨h.1, h'.1⟩, ?_⟩
      cases hs : step s e with
      | none => trivial
      | some s' => exact ih ((meets_cons hs).mp h).2 ((meets_cons hs).mp h').2

/-- **The invariant rule.**  What holds in the first state and is preserved by
every step that meets the condition holds in the last state of the run. -/
theorem run_invariant {cond : σ → ε → Prop} (Inv : σ → Prop)
    (hstep : ∀ s e s', Inv s → cond s e → step s e = some s' → Inv s')
    {s s' : σ} {es : List ε} (hinit : Inv s) (hmeets : Meets step cond s es)
    (hrun : run step s es = some s') : Inv s' := by
  induction es generalizing s with
  | nil =>
      simp only [run_nil, Option.some.injEq] at hrun
      exact hrun ▸ hinit
  | cons e es ih =>
      obtain ⟨t, ht, hrest⟩ := run_cons hrun
      obtain ⟨hcond, hmeets'⟩ := (meets_cons ht).mp hmeets
      exact ih (hstep s e t hinit hcond ht) hmeets' hrest

/-- The invariant rule for a step that needs no condition. -/
theorem run_preserves (Inv : σ → Prop)
    (hstep : ∀ s e s', Inv s → step s e = some s' → Inv s')
    {s s' : σ} {es : List ε} (hinit : Inv s) (hrun : run step s es = some s') : Inv s' := by
  have hmeets : Meets step (fun _ _ => True) s es :=
    meets_of_split hrun fun _ _ _ _ _ _ _ _ => trivial
  exact run_invariant Inv (fun t e t' ht _ => hstep t e t' ht) hinit hmeets hrun

/-- The rule for two states of one run: a reflexive and transitive relation that
every step from an invariant state respects relates the first to the last. -/
theorem run_related {cond : σ → ε → Prop} {Inv : σ → Prop} {R : σ → σ → Prop}
    (hrefl : ∀ s, R s s) (htrans : ∀ s t u, R s t → R t u → R s u)
    (hstep : ∀ s e s', Inv s → cond s e → step s e = some s' → Inv s' ∧ R s s')
    {s s' : σ} {es : List ε} (hinit : Inv s) (hmeets : Meets step cond s es)
    (hrun : run step s es = some s') : Inv s' ∧ R s s' := by
  have key : ∀ t e t', (Inv t ∧ R s t) → cond t e → step t e = some t' →
      Inv t' ∧ R s t' := by
    intro t e t' ht hcond hst
    obtain ⟨hinv, hrel⟩ := hstep t e t' ht.1 hcond hst
    exact ⟨hinv, htrans s t t' ht.2 hrel⟩
  exact run_invariant (fun t => Inv t ∧ R s t) key ⟨hinit, hrefl s⟩ hmeets hrun

/-- The totality rule: if no step that meets the condition can fail in an
invariant state, the whole run succeeds and ends in an invariant state. -/
theorem run_total {cond : σ → ε → Prop} {Inv : σ → Prop}
    (hstep : ∀ s e, Inv s → cond s e → ∃ s', step s e = some s' ∧ Inv s')
    {s : σ} {es : List ε} (hinit : Inv s) (hmeets : Meets step cond s es) :
    ∃ s', run step s es = some s' ∧ Inv s' := by
  induction es generalizing s with
  | nil => exact ⟨s, rfl, hinit⟩
  | cons e es ih =>
      obtain ⟨t, ht, hinv⟩ := hstep s e hinit hmeets.head
      obtain ⟨s', hrun, hinv'⟩ := ih hinv ((meets_cons ht).mp hmeets).2
      exact ⟨s', by rw [run_cons_of_step ht, hrun], hinv'⟩

/-- If a step of an invariant state exists exactly under a condition, the runs that exist are those
that meet it. -/
theorem run_isSome_iff {cond : σ → ε → Prop} {Inv : σ → Prop}
    (hstep : ∀ s e, Inv s → ((step s e).isSome ↔ cond s e))
    (hinv : ∀ s e s', Inv s → step s e = some s' → Inv s') {s : σ} {es : List ε} (hs : Inv s) :
    (run step s es).isSome ↔ Meets step cond s es := by
  induction es generalizing s with
  | nil => exact ⟨fun _ => trivial, fun _ => rfl⟩
  | cons e es ih =>
      cases ht : step s e with
      | none =>
          have hnot : ¬ cond s e := by
            rw [← hstep s e hs, ht]
            exact Bool.false_ne_true
          exact iff_of_false (by simp [run, ht]) fun hmeets => hnot hmeets.head
      | some t =>
          have hcond : cond s e := (hstep s e hs).mp (by rw [ht]; rfl)
          rw [run_cons_of_step ht, meets_cons ht, ih (hinv s e t hs ht)]
          exact ⟨fun hmeets => ⟨hcond, hmeets⟩, And.right⟩

/-- The number of steps of a run that start in a state, and with an event, for which `p` holds. -/
def hits (step : σ → ε → Option σ) (p : σ → ε → Bool) : σ → List ε → Nat
  | _, [] => 0
  | s, e :: es =>
      (if p s e then 1 else 0) +
        match step s e with
        | some s' => hits step p s' es
        | none => 0

theorem hits_cons {p : σ → ε → Bool} {s s' : σ} {e : ε} (h : step s e = some s') (es : List ε) :
    hits step p s (e :: es) = (if p s e then 1 else 0) + hits step p s' es := by
  simp only [hits, h]

/-- A condition on the events alone is counted over the events. -/
theorem hits_eq_countP {p : ε → Bool} {s s' : σ} {es : List ε} (hrun : run step s es = some s') :
    hits step (fun _ e => p e) s es = es.countP p := by
  induction es generalizing s with
  | nil => rfl
  | cons e es ih =>
      obtain ⟨t, ht, hrest⟩ := run_cons hrun
      rw [hits_cons ht, ih hrest, List.countP_cons, Nat.add_comm]

/-- The rule for counting steps: a number that the counted steps make smaller, and no other
step makes larger, bounds how many of them there are. -/
theorem run_hits_add_le {cond : σ → ε → Prop} {Inv : σ → Prop} {μ : σ → Nat} {p : σ → ε → Bool}
    (hstep : ∀ s e s', Inv s → cond s e → step s e = some s' →
      Inv s' ∧ μ s' + (if p s e then 1 else 0) ≤ μ s)
    {s s' : σ} {es : List ε} (hinit : Inv s) (hmeets : Meets step cond s es)
    (hrun : run step s es = some s') : hits step p s es + μ s' ≤ μ s := by
  induction es generalizing s with
  | nil =>
      cases hrun
      simp [hits]
  | cons e es ih =>
      obtain ⟨t, ht, hrest⟩ := run_cons hrun
      obtain ⟨hcond, hmeets'⟩ := (meets_cons ht).mp hmeets
      obtain ⟨hinv, hle⟩ := hstep s e t hinit hcond ht
      have htail := ih hinv hmeets' hrest
      rw [hits_cons ht]
      omega

/-- The last state of a concrete run, with a property checked by evaluation. -/
theorem exists_run_of_check (step : σ → ε → Option σ) (s : σ) (es : List ε) (P : σ → Prop)
    [DecidablePred P] (h : (run step s es).any (fun t => decide (P t)) = true) :
    ∃ t, run step s es = some t ∧ P t := by
  cases hrun : run step s es with
  | none => simp [hrun] at h
  | some t =>
      rw [hrun, Option.any_some, decide_eq_true_eq] at h
      exact ⟨t, rfl, h⟩

/-- A bind returns a value iff both of its halves do. -/
theorem bind_eq_ok {η α β : Type} {x : Except η α} {f : α → Except η β} {b : β} :
    (x >>= f) = .ok b ↔ ∃ a, x = .ok a ∧ f a = .ok b := by
  cases x with
  | error err =>
      constructor
      · intro h
        cases h
      · rintro ⟨a, ha, -⟩
        cases ha
  | ok a =>
      constructor
      · intro h
        exact ⟨a, rfl, h⟩
      · rintro ⟨a', ha, h⟩
        cases ha
        exact h

/-- A bind fails iff its first half fails, or its second half after the first. -/
theorem bind_eq_error {η α β : Type} {x : Except η α} {f : α → Except η β} {err : η} :
    (x >>= f) = .error err ↔ x = .error err ∨ ∃ a, x = .ok a ∧ f a = .error err := by
  cases x with
  | error err' =>
      constructor
      · intro h
        cases h
        exact .inl rfl
      · rintro (h | ⟨a, ha, -⟩)
        · cases h
          rfl
        · cases ha
  | ok a =>
      constructor
      · intro h
        exact .inr ⟨a, rfl, h⟩
      · rintro (h | ⟨a', ha, h⟩)
        · cases h
        · cases ha
          exact h

end Lib
end YoloServer
