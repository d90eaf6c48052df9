import Mathlib.Data.List.Nodup
import YoloServer.Lib.Simulation

/-!
# Concurrent clients of one machine

Clients make requests to a machine in the sense of `process`, each client one at a time.  A request
is received, takes effect in one access to the state of the machine, and is answered.  Steps of
other clients come in between.

* `Linearizes`: there is an order of the requests in which the machine gives the answers that the
  clients have got, and a request that was answered before another one was received is before it.
* `linearizes_of_run`: the order of the accesses is such an order, in every run.
* `Linearizes.of_related`: it is one for every machine that gives the same answers, too.
-/

namespace YoloServer
namespace Lib

open Function

variable {σ τ ι ο κ : Type*}

/-- What the clients see of a request; a number tells the requests apart. -/
inductive Moment (ι ο : Type*) where
  | invoke (id : Nat) (input : ι)
  | respond (id : Nat) (output : ο)

/-- The requests in `order` explain the history.  A request that has not been answered may be
among them or not. -/
structure Linearizes (step : σ → ι → ο × σ) (s : σ) (history : List (Moment ι ο))
    (order : List (Nat × ι × ο)) : Prop where
  once : (order.map Prod.fst).Nodup
  invoked : ∀ x ∈ order, .invoke x.1 x.2.1 ∈ history
  answered : ∀ id output, .respond id output ∈ history → ∃ input, (id, input, output) ∈ order
  sequential : (process step s (order.map fun x => x.2.1)).1 = order.map fun x => x.2.2
  real_time : ∀ id output id' input',
    List.Sublist [.respond id output, .invoke id' input'] history →
    id' ∈ order.map Prod.fst → List.Sublist [id, id'] (order.map Prod.fst)

/-- Two machines that stay related explain the same histories. -/
theorem Linearizes.of_related {step : σ → ι → ο × σ} {step' : τ → ι → ο × τ} {R : σ → τ → Prop}
    {Allowed : ι → Prop}
    (hstep : ∀ s t i, R s t → Allowed i →
      (step s i).1 = (step' t i).1 ∧ R (step s i).2 (step' t i).2)
    {s : σ} {t : τ} {history : List (Moment ι ο)} {order : List (Nat × ι × ο)}
    (h : Linearizes step s history order) (hR : R s t)
    (hallowed : ∀ id i, .invoke id i ∈ history → Allowed i) : Linearizes step' t history order := by
  have hinputs : ∀ i ∈ order.map fun x => x.2.1, Allowed i := by
    intro i hi
    obtain ⟨x, hx, rfl⟩ := List.mem_map.mp hi
    exact hallowed x.1 x.2.1 (h.invoked x hx)
  refine { h with sequential := ?_ }
  rw [← (process_related hstep hR hinputs).1]
  exact h.sequential

/-! ## The clients -/

/-- Where the request of a client is. -/
inductive Phase (ι ο : Type*) where
  | idle
  | received (id : Nat) (input : ι)
  | served (id : Nat) (output : ο)

/-- The machine and its clients.  `history`, `order` and `count` record what happened. -/
structure Clients (κ σ ι ο : Type*) where
  state : σ
  phase : κ → Phase ι ο
  history : List (Moment ι ο)
  order : List (Nat × ι × ο)
  count : Nat

namespace Clients

def init (s : σ) : Clients κ σ ι ο where
  state := s
  phase _ := .idle
  history := []
  order := []
  count := 0

inductive Event (κ ι : Type*) where
  | receive (k : κ) (input : ι)
  | access (k : κ)
  | answer (k : κ)

def step [DecidableEq κ] (serve : σ → ι → ο × σ) (s : Clients κ σ ι ο) :
    Event κ ι → Option (Clients κ σ ι ο)
  | .receive k input =>
      match s.phase k with
      | .idle =>
          some { s with
            phase := update s.phase k (.received s.count input)
            history := s.history ++ [.invoke s.count input]
            count := s.count + 1 }
      | _ => none
  | .access k =>
      match s.phase k with
      | .received id input =>
          some { s with
            state := (serve s.state input).2
            phase := update s.phase k (.served id (serve s.state input).1)
            order := s.order ++ [(id, input, (serve s.state input).1)] }
      | _ => none
  | .answer k =>
      match s.phase k with
      | .served id output =>
          some { s with
            phase := update s.phase k .idle
            history := s.history ++ [.respond id output] }
      | _ => none

/-- The order of the accesses explains the history, and the requests under way fit to both. -/
structure Coherent (serve : σ → ι → ο × σ) (s₀ : σ) (s : Clients κ σ ι ο) : Prop where
  linear : Linearizes serve s₀ s.history s.order
  state : s.state = (process serve s₀ (s.order.map fun x => x.2.1)).2
  counted : ∀ id input, .invoke id input ∈ s.history → id < s.count
  received : ∀ k id input, s.phase k = .received id input →
    .invoke id input ∈ s.history ∧ id ∉ s.order.map Prod.fst
  served : ∀ k id output, s.phase k = .served id output → ∃ input, (id, input, output) ∈ s.order
  apart : ∀ k k' id input input', s.phase k = .received id input →
    s.phase k' = .received id input' → k = k'

variable {serve : σ → ι → ο × σ} {s₀ : σ} {s s' : Clients κ σ ι ο}

theorem coherent_init (serve : σ → ι → ο × σ) (s₀ : σ) :
    Coherent serve s₀ (init s₀ : Clients κ σ ι ο) where
  linear :=
    { once := List.nodup_nil
      invoked := by simp [init]
      answered := by simp [init]
      sequential := rfl
      real_time := by simp [init] }
  state := rfl
  counted := by simp [init]
  received := by simp [init]
  served := by simp [init]
  apart := by simp [init]

/-- Two moments of a history that is longer by one. -/
theorem sublist_pair_concat {α : Type*} {x y z : α} {l : List α}
    (h : List.Sublist [x, y] (l ++ [z])) : List.Sublist [x, y] l ∨ y = z := by
  obtain ⟨l₁, l₂, heq, hl₁, hl₂⟩ := List.sublist_append_iff.mp h
  rcases List.sublist_singleton.mp hl₂ with rfl | rfl
  · rw [List.append_nil] at heq
    rw [heq]
    exact .inl hl₁
  · have hlast := congrArg List.getLast? heq
    simp only [List.getLast?_append, List.getLast?_singleton, Option.some_or] at hlast
    exact .inr (by simpa using hlast)

section Steps

variable [DecidableEq κ]

theorem coherent_receive (h : Coherent serve s₀ s) {k : κ} {input : ι} :
    Coherent serve s₀
      { s with
        phase := update s.phase k (.received s.count input)
        history := s.history ++ [.invoke s.count input]
        count := s.count + 1 } := by
  have hfresh : s.count ∉ s.order.map Prod.fst := by
    intro hmem
    obtain ⟨x, hx, heq⟩ := List.mem_map.mp hmem
    have hlt := h.counted x.1 x.2.1 (h.linear.invoked x hx)
    omega
  have hold : ∀ k' id input', update s.phase k (.received s.count input) k' = .received id input' →
      (k' = k ∧ id = s.count ∧ input' = input) ∨ s.phase k' = .received id input' := by
    intro k' id input' hphase
    by_cases hk : k' = k
    · rw [hk, update_self] at hphase
      cases hphase
      exact .inl ⟨hk, rfl, rfl⟩
    · rw [update_of_ne hk] at hphase
      exact .inr hphase
  refine
    { linear :=
        { h.linear with
          invoked := fun x hx => List.mem_append_left _ (h.linear.invoked x hx)
          answered := ?_
          real_time := ?_ }
      state := h.state
      counted := ?_
      received := ?_
      served := ?_
      apart := ?_ }
  · intro id output hmem
    rcases List.mem_append.mp hmem with hmem | hmem
    · exact h.linear.answered id output hmem
    · cases List.mem_singleton.mp hmem
  · intro id output id' input' hpair hid'
    rcases sublist_pair_concat hpair with hpair | heq
    · exact h.linear.real_time id output id' input' hpair hid'
    · cases heq
      exact absurd hid' hfresh
  · intro id input' hmem
    rcases List.mem_append.mp hmem with hmem | hmem
    · exact (h.counted id input' hmem).trans (Nat.lt_succ_self _)
    · cases List.mem_singleton.mp hmem
      exact Nat.lt_succ_self _
  · intro k' id input' hphase
    rcases hold k' id input' hphase with ⟨-, rfl, rfl⟩ | hphase
    · exact ⟨List.mem_append_right _ (List.mem_singleton_self _), hfresh⟩
    · obtain ⟨hinvoke, hnot⟩ := h.received k' id input' hphase
      exact ⟨List.mem_append_left _ hinvoke, hnot⟩
  · intro k' id output hphase
    by_cases hk : k' = k
    · rw [hk] at hphase
      simp at hphase
    · simp only [update_of_ne hk] at hphase
      exact h.served k' id output hphase
  · -- A request that was received before has a smaller number.
    have hless : ∀ k' id input', s.phase k' = .received id input' → id ≠ s.count := by
      intro k' id input' hphase
      exact (h.counted id input' (h.received k' id input' hphase).1).ne
    intro k₁ k₂ id input₁ input₂ h₁ h₂
    rcases hold k₁ id input₁ h₁ with ⟨hk₁, hid, -⟩ | hphase₁
    · rcases hold k₂ id input₂ h₂ with ⟨hk₂, -, -⟩ | hphase₂
      · exact hk₁.trans hk₂.symm
      · exact absurd hid (hless k₂ id input₂ hphase₂)
    · rcases hold k₂ id input₂ h₂ with ⟨-, hid, -⟩ | hphase₂
      · exact absurd hid (hless k₁ id input₁ hphase₁)
      · exact h.apart k₁ k₂ id input₁ input₂ hphase₁ hphase₂

theorem coherent_access (h : Coherent serve s₀ s) {k : κ} {id : Nat} {input : ι}
    (hphase : s.phase k = .received id input) :
    Coherent serve s₀
      { s with
        state := (serve s.state input).2
        phase := update s.phase k (.served id (serve s.state input).1)
        order := s.order ++ [(id, input, (serve s.state input).1)] } := by
  obtain ⟨hinvoke, hnot⟩ := h.received k id input hphase
  have hprocess := process_concat serve s₀ (s.order.map fun x => x.2.1) input
  rw [← h.state] at hprocess
  refine
    { linear :=
        { once := ?_
          invoked := ?_
          answered := ?_
          sequential := ?_
          real_time := ?_ }
      state := ?_
      counted := h.counted
      received := ?_
      served := ?_
      apart := ?_ }
  · rw [List.map_append]
    exact List.Nodup.append h.linear.once (List.nodup_singleton _) (by simpa using hnot)
  · intro x hx
    rcases List.mem_append.mp hx with hx | hx
    · exact h.linear.invoked x hx
    · rw [List.mem_singleton.mp hx]
      exact hinvoke
  · intro id' output hmem
    obtain ⟨input', hx⟩ := h.linear.answered id' output hmem
    exact ⟨input', List.mem_append_left _ hx⟩
  · rw [List.map_append, List.map_append]
    show (process serve s₀ ((s.order.map fun x => x.2.1) ++ [input])).1 = _
    rw [hprocess, h.linear.sequential]
    rfl
  · intro id₁ output id₂ input₂ hpair hid₂
    rw [List.map_append] at hid₂ ⊢
    rcases List.mem_append.mp hid₂ with hid₂ | hid₂
    · exact (h.linear.real_time id₁ output id₂ input₂ hpair hid₂).trans
        (List.sublist_append_left _ _)
    · -- The first request has been answered, so its access is in the order already.
      rw [List.mem_singleton.mp hid₂]
      obtain ⟨input₁, hx⟩ := h.linear.answered id₁ output (hpair.subset List.mem_cons_self)
      have hfirst : id₁ ∈ s.order.map Prod.fst := List.mem_map_of_mem hx
      exact (List.singleton_sublist.mpr hfirst).append (List.Sublist.refl [id])
  · rw [List.map_append]
    show _ = (process serve s₀ ((s.order.map fun x => x.2.1) ++ [input])).2
    rw [hprocess]
  · intro k' id' input' hphase'
    have hk : k' ≠ k := by
      rintro rfl
      simp at hphase'
    simp only [update_of_ne hk] at hphase'
    obtain ⟨hinvoke', hnot'⟩ := h.received k' id' input' hphase'
    refine ⟨hinvoke', ?_⟩
    rw [List.map_append, List.mem_append, List.map_singleton, List.mem_singleton, not_or]
    refine ⟨hnot', ?_⟩
    rintro rfl
    exact hk (h.apart k' k _ input' input hphase' hphase)
  · intro k' id' output hphase'
    by_cases hk : k' = k
    · rw [hk] at hphase'
      simp only [update_self, Phase.served.injEq] at hphase'
      obtain ⟨rfl, rfl⟩ := hphase'
      exact ⟨input, List.mem_append_right _ (List.mem_singleton_self _)⟩
    · simp only [update_of_ne hk] at hphase'
      obtain ⟨input', hx⟩ := h.served k' id' output hphase'
      exact ⟨input', List.mem_append_left _ hx⟩
  · intro k₁ k₂ id' input₁ input₂ h₁ h₂
    have hk₁ : k₁ ≠ k := by
      rintro rfl
      simp at h₁
    have hk₂ : k₂ ≠ k := by
      rintro rfl
      simp at h₂
    simp only [update_of_ne hk₁] at h₁
    simp only [update_of_ne hk₂] at h₂
    exact h.apart k₁ k₂ id' input₁ input₂ h₁ h₂

theorem coherent_answer (h : Coherent serve s₀ s) {k : κ} {id : Nat} {output : ο}
    (hphase : s.phase k = .served id output) :
    Coherent serve s₀
      { s with
        phase := update s.phase k .idle
        history := s.history ++ [.respond id output] } := by
  have hold : ∀ k' phase, phase ≠ .idle → update s.phase k .idle k' = phase →
      s.phase k' = phase := by
    intro k' phase hbusy hphase'
    have hk : k' ≠ k := by
      rintro rfl
      rw [update_self] at hphase'
      exact hbusy hphase'.symm
    rwa [update_of_ne hk] at hphase'
  refine
    { linear :=
        { h.linear with
          invoked := fun x hx => List.mem_append_left _ (h.linear.invoked x hx)
          answered := ?_
          real_time := ?_ }
      state := h.state
      counted := ?_
      received := ?_
      served := fun k' id' output' h' => h.served k' id' output' (hold k' _ (by simp) h')
      apart := fun k₁ k₂ id' input₁ input₂ h₁ h₂ =>
        h.apart k₁ k₂ id' input₁ input₂ (hold k₁ _ (by simp) h₁) (hold k₂ _ (by simp) h₂) }
  · intro id' output' hmem
    rcases List.mem_append.mp hmem with hmem | hmem
    · exact h.linear.answered id' output' hmem
    · cases List.mem_singleton.mp hmem
      exact h.served k id output hphase
  · intro id₁ output₁ id₂ input₂ hpair hid₂
    rcases sublist_pair_concat hpair with hpair | heq
    · exact h.linear.real_time id₁ output₁ id₂ input₂ hpair hid₂
    · cases heq
  · intro id' input' hmem
    rcases List.mem_append.mp hmem with hmem | hmem
    · exact h.counted id' input' hmem
    · cases List.mem_singleton.mp hmem
  · intro k' id' input' h'
    obtain ⟨hinvoke, hnot⟩ := h.received k' id' input' (hold k' _ (by simp) h')
    exact ⟨List.mem_append_left _ hinvoke, hnot⟩

/-- **The step lemma.** -/
theorem coherent_step {e : Event κ ι} (h : Coherent serve s₀ s) (hstep : step serve s e = some s') :
    Coherent serve s₀ s' := by
  cases e with
  | receive k input =>
      simp only [step] at hstep
      split at hstep
      · cases hstep
        exact coherent_receive h
      · cases hstep
  | access k =>
      simp only [step] at hstep
      split at hstep
      · rename_i id input hphase
        cases hstep
        exact coherent_access h hphase
      · cases hstep
  | answer k =>
      simp only [step] at hstep
      split at hstep
      · rename_i id output hphase
        cases hstep
        exact coherent_answer h hphase
      · cases hstep

/-- **The run lemma.**  Requests that take effect in one access are linearizable. -/
theorem linearizes_of_run {es : List (Event κ ι)} (hrun : run (step serve) (init s₀) es = some s) :
    Linearizes serve s₀ s.history s.order :=
  (run_preserves (Coherent serve s₀) (fun _ _ _ => coherent_step)
    (coherent_init serve s₀) hrun).linear

/-- What the clients invoke is what is received in the run. -/
theorem allowed_of_run {Allowed : ι → Prop} {es : List (Event κ ι)}
    (hes : ∀ k input, .receive k input ∈ es → Allowed input)
    (hrun : run (step serve) (init s₀) es = some s) :
    ∀ id input, .invoke id input ∈ s.history → Allowed input := by
  have hevents : ∀ e ∈ es, ∀ k input, e = .receive k input → Allowed input := by
    rintro e he k input rfl
    exact hes k input he
  have hmeets : Meets (step serve) (fun _ e => ∀ k input, e = .receive k input → Allowed input)
      (init s₀) es := meets_of_forall hevents _
  refine run_invariant (fun s => ∀ id input, .invoke id input ∈ s.history → Allowed input) ?_
    (by simp [init]) hmeets hrun
  intro t e t' ht hcond hstep id input hmem
  cases e with
  | receive k input' =>
      simp only [step] at hstep
      split at hstep
      · cases hstep
        rcases List.mem_append.mp hmem with hmem | hmem
        · exact ht id input hmem
        · cases List.mem_singleton.mp hmem
          exact hcond k input rfl
      · cases hstep
  | access k =>
      simp only [step] at hstep
      split at hstep
      · cases hstep
        exact ht id input hmem
      · cases hstep
  | answer k =>
      simp only [step] at hstep
      split at hstep
      · cases hstep
        rcases List.mem_append.mp hmem with hmem | hmem
        · exact ht id input hmem
        · cases List.mem_singleton.mp hmem
      · cases hstep

end Steps

end Clients
end Lib
end YoloServer
