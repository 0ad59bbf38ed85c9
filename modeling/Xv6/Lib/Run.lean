import Mathlib

/-!
# Runs of a transition system

A system is a function `step s a` that performs the action `a` in the state `s`, or refuses it
(`none`).  `run` performs a list of actions.  An invariant of the steps is an invariant of the
runs (`run_invariant`), and a step-wise simulation one of the runs (`run_simulation`).  `guarded ok step`
performs only the actions that meet a condition.
-/

namespace Xv6.Lib

-- the parties of small systems
instance neZero_one : NeZero 1 := ⟨by decide⟩
instance neZero_two : NeZero 2 := ⟨by decide⟩
instance neZero_three : NeZero 3 := ⟨by decide⟩

variable {S A : Type*}

/-- Perform the actions in order; `none` if one of them is refused. -/
def run (step : S → A → Option S) : S → List A → Option S
  | s, [] => some s
  | s, a :: as => (step s a).bind fun s' => run step s' as

variable {s s' : S} {a : A} {as : List A}

section

variable {step : S → A → Option S}

@[simp]
lemma run_nil (s : S) : run step s [] = some s := rfl

lemma run_cons_eq_some : run step s (a :: as) = some s' ↔ ∃ t, step s a = some t ∧ run step t as = some s' := by
  rw [run, Option.bind_eq_some_iff]

lemma run_append_eq_some {bs : List A} :
    run step s (as ++ bs) = some s' ↔ ∃ t, run step s as = some t ∧ run step t bs = some s' := by
  induction as generalizing s with
  | nil => simp
  | cons a as ih =>
    rw [List.cons_append, run_cons_eq_some]
    constructor
    · rintro ⟨t, ht, h⟩
      obtain ⟨u, hu, h'⟩ := ih.mp h
      exact ⟨u, run_cons_eq_some.mpr ⟨t, ht, hu⟩, h'⟩
    · rintro ⟨u, hu, h'⟩
      obtain ⟨t, ht, hu'⟩ := run_cons_eq_some.mp hu
      exact ⟨t, ht, ih.mpr ⟨u, hu', h'⟩⟩

lemma exists_step_of_mem (h : run step s as = some s') (ha : a ∈ as) : ∃ t t', step t a = some t' := by
  obtain ⟨bs, cs, rfl⟩ := List.append_of_mem ha
  obtain ⟨t, -, ht⟩ := run_append_eq_some.mp h
  obtain ⟨t', ht', -⟩ := run_cons_eq_some.mp ht
  exact ⟨t, t', ht'⟩

/-- **What every step preserves, every run preserves.** -/
lemma run_invariant {I : S → Prop} (hstep : ∀ s a s', step s a = some s' → I s → I s')
    {s s' : S} {as : List A} (h : run step s as = some s') (hs : I s) : I s' := by
  induction as generalizing s with
  | nil => rw [run_nil, Option.some.injEq] at h; exact h ▸ hs
  | cons a as ih =>
    obtain ⟨t, ht, h'⟩ := run_cons_eq_some.mp h
    exact ih h' (hstep s a t ht hs)

/-- What can be observed of the actions, in order. -/
def trace {E : Type*} (step : S → A → Option S) (obs : S → A → List E) : S → List A → List E
  | _, [] => []
  | s, a :: as => obs s a ++ (step s a).elim [] fun s' => trace step obs s' as

/-- **An invariant of the state and of what has been observed**, over actions that meet `ok`. -/
lemma run_trace_invariant {E : Type*} {obs : S → A → List E} {ok : A → Prop} {I : S → List E → Prop}
    (hstep : ∀ s es a s', ok a → step s a = some s' → I s es → I s' (es ++ obs s a)) {s s' : S} {as : List A}
    (h : run step s as = some s') (hok : ∀ a ∈ as, ok a) {es : List E} (hs : I s es) :
    I s' (es ++ trace step obs s as) := by
  induction as generalizing s es with
  | nil =>
    cases h
    rw [trace, List.append_nil]
    exact hs
  | cons a as ih =>
    obtain ⟨t, ht, h'⟩ := run_cons_eq_some.mp h
    obtain ⟨ha, has⟩ := List.forall_mem_cons.mp hok
    rw [trace, ht, ← List.append_assoc]
    exact ih h' has (hstep s es a t ha ht hs)

/-- **Forward simulation.**  When each step is matched by a run of the specification over what the
step shows, so is each run. -/
lemma run_simulation {T E : Type*} {spec : T → E → Option T} {obs : S → A → List E} {R : S → T → Prop}
    (hsim : ∀ s t a s', R s t → step s a = some s' → ∃ t', run spec t (obs s a) = some t' ∧ R s' t')
    {s s' : S} {t : T} {as : List A} (h : run step s as = some s') (hR : R s t) :
    ∃ t', run spec t (trace step obs s as) = some t' ∧ R s' t' := by
  induction as generalizing s t with
  | nil =>
    cases h
    exact ⟨t, rfl, hR⟩
  | cons a as ih =>
    obtain ⟨u, hu, h'⟩ := run_cons_eq_some.mp h
    obtain ⟨t1, ht1, hR1⟩ := hsim s t a u hR hu
    obtain ⟨t', ht', hR'⟩ := ih h' hR1
    refine ⟨t', ?_, hR'⟩
    rw [trace, hu]
    exact run_append_eq_some.mpr ⟨t1, ht1, ht'⟩

/-- The steps that meet the condition `ok`. -/
def guarded (ok : S → A → Prop) [∀ s a, Decidable (ok s a)] (step : S → A → Option S) (s : S) (a : A) : Option S :=
  if ok s a then step s a else none

variable {ok : S → A → Prop} [∀ s a, Decidable (ok s a)]

lemma guarded_eq_some : guarded ok step s a = some s' ↔ ok s a ∧ step s a = some s' := by
  unfold guarded
  split <;> simp [*]

lemma run_of_guarded (h : run (guarded ok step) s as = some s') : run step s as = some s' := by
  induction as generalizing s with
  | nil => exact h
  | cons a as ih =>
    obtain ⟨t, ht, h'⟩ := run_cons_eq_some.mp h
    exact run_cons_eq_some.mpr ⟨t, (guarded_eq_some.mp ht).2, ih h'⟩

end

end Xv6.Lib
