import Adorn.Json.Reader

/-!
# Runs of readers

What a reader gives on a text is found by following it piece by piece:
the lemmas on `>>=` follow a sequence, and two relations follow a loop.
`Reader.Steps` leads from one point of a loop to a later one and
`Reader.Ends` from a point to the outcome of the loop. Both ask each
round to take a character off the text it meets, which is why the
budget of a loop never runs out on the way (`Reader.loop_eq_of_ends`).
Nothing is asked of the rounds that the loop would make on other texts.
Where the outcome is known and the way to it is not, an invariant of the
rounds tells about it (`Reader.loop_invariant`).
-/

namespace Adorn.Json

namespace Reader

variable {α β σ : Type}

/-! ## Sequences -/

theorem bind_ok {x : Reader α} {f : α → Reader β} {s rest : List Char} {a : α}
    (h : x s = .ok (a, rest)) : (x >>= f) s = f a rest := by
  simp only [bind, StateT.bind, h, Except.bind]

theorem bind_error {x : Reader α} {f : α → Reader β} {s : List Char} {e : Error}
    (h : x s = .error e) : (x >>= f) s = .error e := by
  simp only [bind, StateT.bind, h, Except.bind]

theorem bind_eq_ok {x : Reader α} {f : α → Reader β} {s t : List Char} {b : β}
    (h : (x >>= f) s = .ok (b, t)) : ∃ a rest, x s = .ok (a, rest) ∧ f a rest = .ok (b, t) := by
  cases hx : x s with
  | error e =>
      rw [bind_error hx] at h
      cases h
  | ok y =>
      obtain ⟨a, rest⟩ := y
      rw [bind_ok hx] at h
      exact ⟨a, rest, rfl, h⟩

@[simp] theorem pure_apply (a : α) (s : List Char) : (pure a : Reader α) s = .ok (a, s) := rfl

theorem map_ok {x : Reader α} {f : α → β} {s rest : List Char} {a : α}
    (h : x s = .ok (a, rest)) : (f <$> x) s = .ok (f a, rest) := by
  simp only [Functor.map, StateT.map, bind, h, Except.bind, pure, Except.pure]

theorem map_error {x : Reader α} {f : α → β} {s : List Char} {e : Error}
    (h : x s = .error e) : (f <$> x) s = .error e := by
  simp only [Functor.map, StateT.map, bind, h, Except.bind]

/-- What is read first either fails for the one reason `e` or leads on to the rest. -/
theorem bind_ite {c : Prop} [Decidable c] {x : Reader α} {f : α → Reader β} {s rest : List Char}
    {a : α} {e : Error} (h : x s = if c then .ok (a, rest) else .error e) :
    (x >>= f) s = if c then f a rest else .error e := by
  by_cases hc : c
  · rw [if_pos hc] at h ⊢
    exact bind_ok h
  · rw [if_neg hc] at h ⊢
    exact bind_error h

/-! ## Loops -/

/-- What a loop does after a round. -/
def resume (step : σ → Reader (σ ⊕ α)) : σ ⊕ α → Reader α
  | .inl b => loop step b
  | .inr x => pure x

theorem loop_eq {step : σ → Reader (σ ⊕ α)} (hstep : Consumes step) (a : σ) :
    loop step a = step a >>= resume step := by
  funext s
  cases hs : step a s with
  | error e => rw [loop_error hs, bind_error hs]
  | ok y =>
      obtain ⟨b | x, rest⟩ := y
      · rw [loop_next hstep hs, bind_ok hs, resume]
      · rw [loop_done hs, bind_ok hs, resume, pure_apply]

/-- Rounds that lead a loop from one state and text to another. -/
inductive Steps (step : σ → Reader (σ ⊕ α)) : σ → List Char → σ → List Char → Prop where
  | refl (a : σ) (s : List Char) : Steps step a s a s
  | cons {a b c : σ} {s t u : List Char} (hstep : step a s = .ok (.inl b, t))
      (hlt : t.length < s.length) (hsteps : Steps step b t c u) : Steps step a s c u

/-- The outcome of a loop from a state and a text. -/
inductive Ends (step : σ → Reader (σ ⊕ α)) :
    σ → List Char → Except Error (α × List Char) → Prop where
  | done {a : σ} {x : α} {s rest : List Char} (hstep : step a s = .ok (.inr x, rest)) :
      Ends step a s (.ok (x, rest))
  | failed {a : σ} {s : List Char} {e : Error} (hstep : step a s = .error e) :
      Ends step a s (.error e)
  | next {a b : σ} {s t : List Char} {r : Except Error (α × List Char)}
      (hstep : step a s = .ok (.inl b, t)) (hlt : t.length < s.length)
      (hends : Ends step b t r) : Ends step a s r

variable {step : σ → Reader (σ ⊕ α)}

theorem Steps.single {a b : σ} {s t : List Char} (hstep : step a s = .ok (.inl b, t))
    (hlt : t.length < s.length) : Steps step a s b t :=
  .cons hstep hlt (.refl b t)

theorem Steps.trans {a b c : σ} {s t u : List Char} (h : Steps step a s b t)
    (h' : Steps step b t c u) : Steps step a s c u := by
  induction h with
  | refl => exact h'
  | cons hstep hlt _ ih => exact .cons hstep hlt (ih h')

theorem Steps.ends {a b : σ} {s t : List Char} {r : Except Error (α × List Char)}
    (h : Steps step a s b t) (h' : Ends step b t r) : Ends step a s r := by
  induction h with
  | refl => exact h'
  | cons hstep hlt _ ih => exact .next hstep hlt (ih h')

/-- A round that either fails for the one reason `e` or leads on to rounds that may fail for it. -/
theorem Ends.next_ite {c d : Prop} [Decidable c] [Decidable d] {a b : σ} {s t : List Char}
    {r : Except Error (α × List Char)} {e : Error}
    (hstep : step a s = if c then .ok (.inl b, t) else .error e) (hlt : t.length < s.length)
    (hends : Ends step b t (if d then r else .error e)) :
    Ends step a s (if c ∧ d then r else .error e) := by
  by_cases hc : c
  · rw [if_pos hc] at hstep
    simp only [hc, true_and]
    exact .next hstep hlt hends
  · rw [if_neg hc] at hstep
    simp only [hc, false_and, if_false]
    exact .failed hstep

theorem iterate_eq_of_ends {a : σ} {s : List Char} {r : Except Error (α × List Char)}
    (h : Ends step a s r) : ∀ B : List Char, s.length < B.length → iterate step B a s = r := by
  induction h with
  | done hstep =>
      intro B hB
      cases B with
      | nil => exact absurd hB (Nat.not_lt_zero _)
      | cons _ B => rw [iterate, hstep]
  | failed hstep =>
      intro B hB
      cases B with
      | nil => exact absurd hB (Nat.not_lt_zero _)
      | cons _ B => rw [iterate, hstep]
  | next hstep hlt _ ih =>
      intro B hB
      cases B with
      | nil => exact absurd hB (Nat.not_lt_zero _)
      | cons _ B =>
          rw [iterate, hstep]
          refine ih B ?_
          rw [List.length_cons] at hB
          omega

/-- A loop has the outcome that its rounds lead to. -/
theorem loop_eq_of_ends {a : σ} {s : List Char} {r : Except Error (α × List Char)}
    (h : Ends step a s r) : loop step a s = r :=
  iterate_eq_of_ends h (' ' :: s) (by simp)

/-- What every round of a loop keeps, of its state and of the text before it, holds until the round
that ends the loop. -/
theorem loop_invariant {I : σ → List Char → Prop} {P : α → List Char → Prop}
    (hround : ∀ a s y t, I a s → step a s = .ok (y, t) → Sum.elim (I · t) (P · t) y)
    {a : σ} {s t : List Char} {x : α} (ha : I a s) (h : loop step a s = .ok (x, t)) : P x t := by
  -- Induction on the budget, since nothing is known about the text: a round that goes on uses up
  -- one character of the budget and hands the invariant to the rounds that are left.
  have hrounds : ∀ B a s, I a s → iterate step B a s = .ok (x, t) → P x t := by
    intro B
    induction B with
    | nil =>
        intro a s _ h
        cases h
    | cons c B ih =>
        intro a s ha h
        rw [iterate] at h
        split at h
        · cases h
        · next b u hstep => exact ih b u (hround a s _ u ha hstep) h
        · next y u hstep =>
            cases h
            exact hround a s _ _ ha hstep
  exact hrounds (' ' :: s) a s ha h

end Reader

end Adorn.Json
