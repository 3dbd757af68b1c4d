import Adorn.Json.Container
import Adorn.Proofs.Json.Run

/-!
# What a reader can give

`Reader.Yields` is about the values that a reader gives, whatever text
it meets: nothing is said about the text, or about whether there is a
value at all. Such facts follow the code of the reader, one rule for
each way of putting readers together. The rule for a loop asks for an
invariant that every round keeps, and carries it over all rounds.
-/

namespace Adorn.Json

namespace Reader

variable {α β σ : Type}

/-- Every value that the reader gives has the property. -/
def Yields (r : Reader α) (P : α → Prop) : Prop :=
  ∀ s x rest, r s = .ok (x, rest) → P x

namespace Yields

variable {P : α → Prop} {Q : β → Prop}

theorem pure {a : α} (h : P a) : (Pure.pure a : Reader α).Yields P := by
  rintro s x rest ⟨⟩
  exact h

theorem throw (e : Error) : (MonadExcept.throw e : Reader α).Yields P :=
  fun _ _ _ h => nomatch h

theorem lift {y : Except Error α} (h : ∀ a, y = .ok a → P a) : (liftM y : Reader α).Yields P := by
  intro s x rest hrun
  cases y with
  | error e => cases hrun
  | ok a =>
      cases hrun
      exact h x rfl

theorem bind {r : Reader α} {f : α → Reader β} (hr : r.Yields P)
    (hf : ∀ a, P a → (f a).Yields Q) : (r >>= f).Yields Q := by
  intro s x rest h
  cases hrun : r s with
  | error e =>
      rw [bind_error hrun] at h
      cases h
  | ok y =>
      obtain ⟨a, t⟩ := y
      rw [bind_ok hrun] at h
      exact hf a (hr s a t hrun) t x rest h

/-- What is read first may be of no interest. -/
theorem next {r : Reader α} {f : α → Reader β} (hf : ∀ a, (f a).Yields Q) : (r >>= f).Yields Q :=
  bind (P := fun _ => True) (fun _ _ _ _ => trivial) fun a _ => hf a

/-- An invariant that every round of a loop keeps holds until the round that ends it. -/
theorem loop {step : σ → Reader (σ ⊕ α)} {I : σ → Prop}
    (hstep : ∀ a, I a → (step a).Yields (Sum.elim I P)) {a : σ} (ha : I a) :
    (Reader.loop step a).Yields P := fun _ _ _ h =>
  loop_invariant (I := fun a _ => I a) (P := fun x _ => P x)
    (fun a s y t ha hround => hstep a ha s y t hround) ha h

/-! ## Arrays and objects -/

theorem itemStep {item : Reader α} (hitem : item.Yields P) {state : Bool × Array α}
    (hstate : ∀ x ∈ state.2.toList, P x) :
    (Json.itemStep item state).Yields
      (Sum.elim (fun state => ∀ x ∈ state.2.toList, P x) fun xs => ∀ x ∈ xs, P x) := by
  refine next fun more => ?_
  split
  · refine bind hitem fun x hx => pure ?_
    intro y hy
    rw [Array.toList_push, List.mem_append, List.mem_singleton] at hy
    rcases hy with hy | rfl
    · exact hstate y hy
    · exact hx
  · exact next fun _ => pure hstate

theorem items {item : Reader α} (hitem : item.Yields P) (first : Bool) :
    (Json.items item first).Yields fun xs => ∀ x ∈ xs, P x :=
  loop (fun _ hstate => itemStep hitem hstate) fun _ hx => nomatch hx

theorem entryStep {value : Reader α} (hvalue : value.Yields P) {state : Bool × Array (String × α)}
    (hstate : ∀ e ∈ state.2.toList, P e.2) :
    (Json.entryStep value state).Yields
      (Sum.elim (fun state => ∀ e ∈ state.2.toList, P e.2) fun es => ∀ e ∈ es, P e.2) := by
  refine next fun more => ?_
  split
  · refine next fun k => next fun _ => bind hvalue fun x hx => pure ?_
    intro e he
    rw [Array.toList_push, List.mem_append, List.mem_singleton] at he
    rcases he with he | rfl
    · exact hstate e he
    · exact hx
  · exact next fun _ => pure hstate

theorem entries {value : Reader α} (hvalue : value.Yields P) :
    (Json.entries value).Yields fun es => ∀ e ∈ es, P e.2 :=
  loop (fun _ hstate => entryStep hvalue hstate) fun _ he => nomatch he

end Yields

end Reader

end Adorn.Json
