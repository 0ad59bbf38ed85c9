import Mathlib

/-!
# Programs with state and errors, and their weakest preconditions

`Prog S E α` is a program over states `S` that returns an `α` or stops with an error of `E`.
`wp m ok Q s` says of the program `m` started in `s` that, if it returns, `Q` holds of the value and
the state, and if it stops, `ok` holds of the error.
-/

namespace Xv6.Lib

def Prog (S E α : Type) : Type := S → Except E (α × S)

namespace Prog

variable {S E α β : Type}

instance : Monad (Prog S E) where
  pure a s := .ok (a, s)
  bind m f s :=
    match m s with
    | .ok (a, s') => f a s'
    | .error e => .error e

instance : LawfulMonad (Prog S E) := LawfulMonad.mk' _
  (fun m => by
    funext s
    simp only [Functor.map]
    cases m s <;> rfl)
  (fun _ _ => rfl)
  (fun m f g => by
    funext s
    simp only [bind]
    cases m s <;> rfl)

def read : Prog S E S := fun s => .ok (s, s)

def modify (f : S → S) : Prog S E Unit := fun s => .ok ((), f s)

def stop (e : E) : Prog S E α := fun _ => .error e

/-- The first of `xs` for which `body` returns something, with what it returns. -/
def findM (body : α → Prog S E (Option β)) : List α → Prog S E (Option β)
  | [] => pure none
  | x :: xs => do
    match ← body x with
    | some b => pure (some b)
    | none => findM body xs

/-- `body` for each of `xs`. -/
def eachM (body : α → Prog S E Unit) : List α → Prog S E Unit
  | [] => pure ()
  | x :: xs => do
    body x
    eachM body xs

end Prog

open Prog

variable {S E α β : Type} {ok : E → Prop}

def wp (m : Prog S E α) (ok : E → Prop) (Q : α → S → Prop) (s : S) : Prop :=
  match m s with
  | .ok (a, s') => Q a s'
  | .error e => ok e

variable {Q : Option β → S → Prop} {body : ℕ → Prog S E Unit} {I : ℕ → S → Prop} {a n : ℕ}

section

variable {m : Prog S E α} {Q Q' : α → S → Prop} {s : S}

lemma wp.mono (h : wp m ok Q s) (hQ : ∀ a s', Q a s' → Q' a s') : wp m ok Q' s := by
  unfold wp at h ⊢
  split at h
  · exact hQ _ _ h
  · exact h

lemma wp.and {R : α → S → Prop} (h : wp m ok Q s) (h' : wp m ok R s) : wp m ok (fun a s' => Q a s' ∧ R a s') s := by
  unfold wp at *
  cases hm : m s with
  | ok r =>
    rw [hm] at h h'
    exact ⟨h, h'⟩
  | error e =>
    rw [hm] at h
    exact h

lemma wp.of_ok (h : wp m ok Q s) {a : α} {s' : S} (hm : m s = .ok (a, s')) : Q a s' := by
  unfold wp at h
  rwa [hm] at h

lemma wp.of_error (h : wp m ok Q s) {e : E} (hm : m s = .error e) : ok e := by
  unfold wp at h
  rwa [hm] at h

lemma wp.eqn (h : wp m ok Q s) : wp m ok (fun a s' => m s = .ok (a, s') ∧ Q a s') s := by
  unfold wp at *
  cases hm : m s with
  | ok r =>
    rw [hm] at h
    exact ⟨rfl, h⟩
  | error e =>
    rw [hm] at h
    exact h

lemma wp.returns (h : wp m (fun _ => False) Q s) : ∃ a s', m s = .ok (a, s') ∧ Q a s' := by
  cases hm : m s with
  | ok r => exact ⟨r.1, r.2, rfl, h.of_ok hm⟩
  | error e => exact (h.of_error hm).elim

@[simp]
lemma wp_pure (a : α) : wp (pure a : Prog S E α) ok Q s ↔ Q a s := Iff.rfl

@[simp]
lemma wp_bind {f : α → Prog S E β} {R : β → S → Prop} :
    wp (m >>= f) ok R s ↔ wp m ok (fun a => wp (f a) ok R) s := by
  change (match (match m s with
    | .ok (a, s') => f a s'
    | .error e => .error e) with
    | .ok (a, s') => R a s'
    | .error e => ok e) ↔ _
  unfold wp
  cases m s with
  | ok r => rfl
  | error e => rfl

lemma wp_bind_assoc {γ : Type} {f : α → Prog S E β} {g : β → Prog S E γ} {R : γ → S → Prop} :
    wp (m >>= fun a => f a >>= g) ok R s ↔ wp (m >>= f) ok (fun b => wp (g b) ok R) s := by
  rw [wp_bind, wp_bind]
  have hf : (fun a => wp (f a >>= g) ok R) = fun a => wp (f a) ok fun b => wp (g b) ok R :=
    funext fun _ => funext fun _ => propext wp_bind
  rw [hf]

@[simp]
lemma wp_read {R : S → S → Prop} : wp (read : Prog S E S) ok R s ↔ R s s := Iff.rfl

@[simp]
lemma wp_modify {f : S → S} {R : Unit → S → Prop} :
    wp (Prog.modify f : Prog S E Unit) ok R s ↔ R () (f s) := Iff.rfl

lemma wp_ite {c : Prop} [Decidable c] {m' : Prog S E α} :
    wp (if c then m else m') ok Q s ↔ (c → wp m ok Q s) ∧ (¬ c → wp m' ok Q s) := by
  split <;> simp [*]

end

lemma wp_findM {body : α → Prog S E (Option β)} {I : List α → S → Prop}
    (hbody : ∀ x xs s, I (x :: xs) s → wp (body x) ok (fun r s' =>
      match r with
      | some b => Q (some b) s'
      | none => I xs s') s) (hend : ∀ s, I [] s → Q none s) (xs : List α) (s : S) (h : I xs s) :
    wp (findM body xs) ok Q s := by
  induction xs generalizing s with
  | nil => exact hend s h
  | cons x xs ih =>
    rw [findM, wp_bind]
    refine (hbody x xs s h).mono fun r s' hr => ?_
    cases r with
    | some b => exact hr
    | none => exact ih s' hr

lemma wp_eachM {body : α → Prog S E Unit} {I : List α → S → Prop}
    (hbody : ∀ x xs s, I (x :: xs) s → wp (body x) ok (fun _ s' => I xs s') s) (xs : List α) (s : S)
    (h : I xs s) : wp (eachM body xs) ok (fun _ s' => I [] s') s := by
  induction xs generalizing s with
  | nil => exact h
  | cons x xs ih =>
    rw [eachM, wp_bind]
    exact (hbody x xs s h).mono fun _ s' hs => ih s' hs

/-! ### Loops over a range -/

lemma wp_eachM_range' (hbody : ∀ k s, a ≤ k → k < a + n → I k s → wp (body k) ok (fun _ s' => I (k + 1) s') s) (s : S)
    (h : I a s) : wp (eachM body (List.range' a n)) ok (fun _ s' => I (a + n) s') s := by
  induction n generalizing a s with
  | zero => exact h
  | succ n ih =>
    rw [List.range'_succ, eachM, wp_bind]
    refine (hbody a s (Nat.le_refl _) (by omega) h).mono fun _ s' hs => ?_
    rw [show a + (n + 1) = a + 1 + n by omega]
    exact ih (fun k t h1 h2 => hbody k t (by omega) (by omega)) s' hs

lemma wp_eachM_range (hbody : ∀ k s, k < n → I k s → wp (body k) ok (fun _ s' => I (k + 1) s') s) (s : S) (h : I 0 s)
    :
    wp (eachM body (List.range n)) ok (fun _ s' => I n s') s := by
  rw [List.range_eq_range']
  have := wp_eachM_range' (n := n) (fun k t _ h2 => hbody k t (by omega)) s h
  rwa [Nat.zero_add] at this

lemma wp_findM_range' {body : ℕ → Prog S E (Option β)}
    (hbody : ∀ k s, a ≤ k → k < a + n → I k s → wp (body k) ok (fun r s' =>
      match r with
      | some b => Q (some b) s'
      | none => I (k + 1) s') s) (hend : ∀ s, I (a + n) s → Q none s) (s : S) (h : I a s) :
    wp (findM body (List.range' a n)) ok Q s := by
  induction n generalizing a s with
  | zero => exact hend s h
  | succ n ih =>
    rw [List.range'_succ, findM, wp_bind]
    refine (hbody a s (Nat.le_refl _) (by omega) h).mono fun r s' hr => ?_
    cases r with
    | some b => exact hr
    | none =>
      refine ih (fun k t h1 h2 => hbody k t (by omega) (by omega)) (fun t ht => hend t ?_) s' hr
      rwa [show a + (n + 1) = a + 1 + n by omega]

lemma wp_findM_range {body : ℕ → Prog S E (Option β)} (hbody : ∀ k s, k < n → I k s → wp (body k) ok (fun r s' =>
      match r with
      | some b => Q (some b) s'
      | none => I (k + 1) s') s) (hend : ∀ s, I n s → Q none s) (s : S) (h : I 0 s) :
    wp (findM body (List.range n)) ok Q s := by
  rw [List.range_eq_range']
  exact wp_findM_range' (fun k t _ h2 => hbody k t (by omega))
    (fun t ht => hend t (by rwa [Nat.zero_add] at ht)) s h

/-! ### Programs that do not look at a part of the state -/

/-- `m` neither reads nor writes what `f` changes. -/
def Prog.Commutes (f : S → S) (m : Prog S E α) : Prop := ∀ s, m (f s) = (m s).map fun r => (r.1, f r.2)

lemma Prog.Commutes.wp_iff {f : S → S} {m : Prog S E α} (h : Commutes f m) {Q : α → S → Prop} {s : S} :
    wp m ok (fun a s' => Q a (f s')) s ↔ wp m ok Q (f s) := by
  unfold wp
  rw [h s]
  cases m s with
  | ok r => rfl
  | error e => rfl

namespace Prog

variable {f : S → S} {m m' : Prog S E α}

lemma commutes_pure (a : α) : Commutes f (pure a : Prog S E α) := fun _ => rfl

lemma commutes_stop (e : E) : Commutes f (stop e : Prog S E α) := fun _ => rfl

lemma commutes_modify {g : S → S} (h : ∀ s, g (f s) = f (g s)) : Commutes f (Prog.modify g : Prog S E Unit) := by
  intro s
  change Except.ok ((), g (f s)) = Except.ok ((), f (g s))
  rw [h]

lemma commutes_get {g : S → α} (h : ∀ s, g (f s) = g s) :
    Commutes f (do let s ← Prog.read; pure (g s) : Prog S E α) := by
  intro s
  change Except.ok (g (f s), f s) = Except.ok (g s, f s)
  rw [h]

lemma commutes_bind {k : α → Prog S E β} (hm : Commutes f m) (hk : ∀ a, Commutes f (k a)) :
    Commutes f (m >>= k) := by
  intro s
  change (match m (f s) with
    | .ok (a, s') => k a s'
    | .error e => .error e) = Except.map _ (match m s with
    | .ok (a, s') => k a s'
    | .error e => .error e)
  rw [hm s]
  cases m s with
  | ok r => exact hk r.1 r.2
  | error e => rfl

lemma commutes_ite {c : Prop} [Decidable c] (h : Commutes f m) (h' : Commutes f m') :
    Commutes f (if c then m else m') := by
  split
  · exact h
  · exact h'

lemma commutes_eachM {body : α → Prog S E Unit} (h : ∀ x, Commutes f (body x)) (xs : List α) :
    Commutes f (eachM body xs) := by
  induction xs with
  | nil => exact commutes_pure ()
  | cons x xs ih => exact commutes_bind (h x) fun _ => ih

end Prog

end Xv6.Lib
