import Mathlib.Logic.Function.Basic
import YoloServer.Lib.Run

/-!
# One system in terms of another

Two systems in the sense of `Lib.Run`, and a function `view` that turns a state of the first into a
state of the second.

* `run_commutes`: if the systems have the same events and `view` commutes with every step from
  a state that satisfies an invariant, it commutes with every run.
* `run_simulates`: if every step of the second system is the view of a step of the first, under a
  condition on the second, every run of the second that meets it is the view of a run of the
  first, with the events that `translate` makes of its own.

A machine takes inputs and gives an output for each of them (`process`).

* `process_related`: two machines that give the same output in related states, and get to related
  states again, give the same outputs to every list of inputs.
* `process_component`: a machine each of whose inputs is for one component, which handles it on its
  own, is for each component the machine that takes the inputs for this component.
-/

namespace YoloServer
namespace Lib

variable {σ τ ε ε' : Type*} {step : σ → ε → Option σ} {view : σ → τ} {Inv : σ → Prop}
  {cond : σ → ε → Prop}

/-- The two systems make the same runs, up to the translation of the states. -/
theorem run_commutes {step' : τ → ε → Option τ}
    (hcommutes : ∀ s e, Inv s → step' (view s) e = (step s e).map view)
    (hinv : ∀ s e s', Inv s → cond s e → step s e = some s' → Inv s')
    {s : σ} {es : List ε} (hs : Inv s) (hmeets : Meets step cond s es) :
    run step' (view s) es = (run step s es).map view := by
  induction es generalizing s with
  | nil => rfl
  | cons e es ih =>
      cases hstep : step s e with
      | none =>
          have hview : step' (view s) e = none := by
            rw [hcommutes s e hs, hstep]
            rfl
          simp only [run, hstep, hview, Option.map_none]
      | some s' =>
          have hview : step' (view s) e = some (view s') := by
            rw [hcommutes s e hs, hstep]
            rfl
          have hcond : cond s e := Meets.head hmeets
          rw [run_cons_of_step hview, run_cons_of_step hstep]
          exact ih (hinv s e s' hs hcond hstep) ((meets_cons hstep).mp hmeets).2

section Simulates

variable {step' : τ → ε' → Option τ} {event : τ → ε' → ε}

/-- The events of the first system that stand for the events of a run of the second.  What an event
stands for depends on the state in which it comes. -/
def translate (step' : τ → ε' → Option τ) (event : τ → ε' → ε) : τ → List ε' → List ε
  | _, [] => []
  | t, e :: es =>
      event t e ::
        match step' t e with
        | some t' => translate step' event t' es
        | none => []

theorem translate_cons {t t' : τ} {e : ε'} (h : step' t e = some t') (es : List ε') :
    translate step' event t (e :: es) = event t e :: translate step' event t' es := by
  rw [translate, h]

/-- There are no more events of a kind than before if none comes to be of the kind. -/
theorem countP_translate_le {p : ε → Bool} {p' : ε' → Bool}
    (h : ∀ t e, p (event t e) = true → p' e = true) (t : τ) (es : List ε') :
    (translate step' event t es).countP p ≤ es.countP p' := by
  induction es generalizing t with
  | nil => exact Nat.le_refl _
  | cons e es ih =>
      have hrest : (match step' t e with
          | some t' => translate step' event t' es
          | none => []).countP p ≤ es.countP p' := by
        cases step' t e with
        | some t' => exact ih t'
        | none => exact Nat.zero_le _
      rw [translate, List.countP_cons, List.countP_cons]
      refine Nat.add_le_add hrest ?_
      split_ifs with hp hp'
      · exact Nat.le_refl _
      · exact absurd (h t e hp) hp'
      · exact Nat.zero_le _
      · exact Nat.le_refl _

/-- Every run of the second system is the view of a run of the first. -/
theorem run_simulates {cond' : τ → ε' → Prop}
    (hsim : ∀ s e t, Inv s → cond' (view s) e → step' (view s) e = some t →
      ∃ s', step s (event (view s) e) = some s' ∧ t = view s')
    (hinv : ∀ s e s', Inv s → cond s e → step s e = some s' → Inv s')
    {s : σ} {t : τ} {es : List ε'} (hs : Inv s) (hmeets' : Meets step' cond' (view s) es)
    (hmeets : Meets step cond s (translate step' event (view s) es))
    (hrun : run step' (view s) es = some t) :
    ∃ s', run step s (translate step' event (view s) es) = some s' ∧ t = view s' := by
  induction es generalizing s with
  | nil =>
      cases hrun
      exact ⟨s, rfl, rfl⟩
  | cons e es ih =>
      obtain ⟨u, hu, hrest⟩ := run_cons hrun
      have hcond' : cond' (view s) e := Meets.head hmeets'
      obtain ⟨s', hstep, rfl⟩ := hsim s e u hs hcond' hu
      rw [meets_cons hu] at hmeets'
      rw [translate_cons hu, meets_cons hstep] at hmeets
      rw [translate_cons hu, run_cons_of_step hstep]
      exact ih (hinv s _ s' hs hmeets.1 hstep) hmeets'.2 hmeets.2 hrest

end Simulates

/-! ## Machines with outputs -/

variable {ι ο : Type*}

/-- The outputs to a list of inputs, and the last state. -/
def process (step : σ → ι → ο × σ) : σ → List ι → List ο × σ
  | s, [] => ([], s)
  | s, i :: is =>
      let (o, s') := step s i
      let (os, last) := process step s' is
      (o :: os, last)

/-- The last input and its output. -/
theorem process_concat (step : σ → ι → ο × σ) (s : σ) (is : List ι) (i : ι) :
    process step s (is ++ [i]) =
      ((process step s is).1 ++ [(step (process step s is).2 i).1],
        (step (process step s is).2 i).2) := by
  induction is generalizing s with
  | nil => rfl
  | cons j is ih => simp only [List.cons_append, process, ih]

/-- Two machines that stay related give the same outputs. -/
theorem process_related {step : σ → ι → ο × σ} {step' : τ → ι → ο × τ} {R : σ → τ → Prop}
    {Allowed : ι → Prop}
    (hstep : ∀ s t i, R s t → Allowed i →
      (step s i).1 = (step' t i).1 ∧ R (step s i).2 (step' t i).2)
    {s : σ} {t : τ} {is : List ι} (hR : R s t) (his : ∀ i ∈ is, Allowed i) :
    (process step s is).1 = (process step' t is).1 ∧
      R (process step s is).2 (process step' t is).2 := by
  induction is generalizing s t with
  | nil => exact ⟨rfl, hR⟩
  | cons i is ih =>
      obtain ⟨hout, hnext⟩ := hstep s t i hR (his i List.mem_cons_self)
      obtain ⟨houts, hlast⟩ := ih hnext fun j hj => his j (List.mem_cons_of_mem _ hj)
      exact ⟨congrArg₂ List.cons hout houts, hlast⟩

section Components

variable {α : Type*} [DecidableEq α]

/-- What a machine of independent components does is what they do one by one. -/
theorem process_component (step : (α → σ) → α × ι → ο × (α → σ)) (own : α → σ → ι → ο × σ)
    {Allowed : α → Prop}
    (hstep : ∀ f a i, Allowed a →
      step f (a, i) = ((own a (f a) i).1, Function.update f a (own a (f a) i).2))
    (f : α → σ) {is : List (α × ι)} (his : ∀ p ∈ is, Allowed p.1) (a : α) :
    (((is.zip (process step f is).1).filter fun r => r.1.1 = a).map Prod.snd =
        (process (own a) (f a) ((is.filter fun p => p.1 = a).map Prod.snd)).1) ∧
      (process step f is).2 a =
        (process (own a) (f a) ((is.filter fun p => p.1 = a).map Prod.snd)).2 := by
  induction is generalizing f with
  | nil => exact ⟨rfl, rfl⟩
  | cons p is ih =>
      obtain ⟨b, i⟩ := p
      have hb : Allowed b := his (b, i) List.mem_cons_self
      have hrest := ih (step f (b, i)).2 fun q hq => his q (List.mem_cons_of_mem _ hq)
      rw [hstep f b i hb] at hrest
      by_cases hab : b = a
      · subst hab
        simp only [Function.update_self] at hrest
        simp only [process, hstep f b i hb, List.zip_cons_cons, List.filter_cons, decide_true,
          if_true, List.map_cons, hrest.1, hrest.2, and_self]
      · simp only [Function.update_of_ne (Ne.symm hab)] at hrest
        simp only [process, hstep f b i hb, List.zip_cons_cons, List.filter_cons, hab, decide_false,
          Bool.false_eq_true, if_false, hrest.1, hrest.2, and_self]

end Components

end Lib
end YoloServer
