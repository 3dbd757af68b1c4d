import Adorn.Wire.Buffer
import Mathlib.Data.List.Nodup

/-!
# What a draft waits for

While the entries of an object come by, a draft is on its way to a
tuple. `Draft.Awaits` says what the entries still to come must hold for
that tuple to be the outcome: the key of a field that has been read must
not come again, and any other field must come exactly once, or not at
all if it has a default. `Draft.awaits_cons` is the step, one entry at a
time, and `Draft.awaits_nil` the end.

Nothing here depends on where the entries come from. `R` says what a
field makes of a source, be it a tree or a text.
-/

namespace Adorn.Wire

open Json

/-- The values under a key, in their order. -/
def valuesAt {σ : Type} (key : String) : List (String × σ) → List σ
  | [] => []
  | (k, s) :: es => if k = key then s :: valuesAt key es else valuesAt key es

section Keys

variable {σ : Type}

theorem valuesAt_self (key : String) (s : σ) (es : List (String × σ)) :
    valuesAt key ((key, s) :: es) = s :: valuesAt key es := if_pos rfl

theorem valuesAt_of_ne {k key : String} (h : k ≠ key) (s : σ) (es : List (String × σ)) :
    valuesAt key ((k, s) :: es) = valuesAt key es := if_neg h

theorem mem_valuesAt {key : String} {s : σ} : {es : List (String × σ)} →
    (s ∈ valuesAt key es ↔ (key, s) ∈ es)
  | [] => by simp [valuesAt]
  | (k, t) :: es => by
      by_cases hk : k = key
      · subst hk
        simp only [valuesAt_self, List.mem_cons, mem_valuesAt, Prod.mk.injEq, true_and]
      · have hne : (key, s) ≠ (k, t) := fun h => hk (congrArg Prod.fst h).symm
        simp only [valuesAt_of_ne hk, List.mem_cons, mem_valuesAt, hne, false_or]

end Keys

variable {m : Type → Type} {σ : Type} (R : (f : Field m) → σ → f.Ty → Prop)

/-- The field is to have the value `x`, and `y` is what has been read of it. -/
def Field.Awaits (f : Field m) : (y : Option f.Ty) → (x : f.Ty) → List (String × σ) → Prop
  | some y, x, es => y = x ∧ valuesAt f.key es = []
  | none, x, es =>
    (∃ s, valuesAt f.key es = [s] ∧ R f s x) ∨ (valuesAt f.key es = [] ∧ f.absent = some x)

/-- The entries to come turn the draft into the tuple. -/
def Draft.Awaits : (fs : List (Field m)) → Draft fs → Tuple fs → List (String × σ) → Prop
  | [], _, _, _ => True
  | f :: fs, (y, d), (x, t), es => f.Awaits R y x es ∧ Draft.Awaits fs d t es

variable {R}

theorem Field.awaits_of_ne {f : Field m} {k : String} (h : k ≠ f.key) {s : σ}
    {es : List (String × σ)} : (y : Option f.Ty) → (x : f.Ty) →
      (f.Awaits R y x ((k, s) :: es) ↔ f.Awaits R y x es)
  | some y, x => by rw [Field.Awaits, Field.Awaits, valuesAt_of_ne h]
  | none, x => by rw [Field.Awaits, Field.Awaits, valuesAt_of_ne h]

/-- A field that is free takes the source of its key and awaits no other. -/
theorem Field.awaits_free {f : Field m} {x : f.Ty} {s : σ} {es : List (String × σ)} :
    f.Awaits R none x ((f.key, s) :: es) ↔ ∃ y, R f s y ∧ f.Awaits R (some y) x es := by
  rw [Field.Awaits, valuesAt_self]
  constructor
  · rintro (⟨s', hs, hx⟩ | ⟨hs, -⟩)
    · obtain ⟨rfl, hes⟩ := List.cons.inj hs
      exact ⟨x, hx, rfl, hes⟩
    · cases hs
  · intro h
    obtain ⟨y, hy, rfl, hes⟩ := h
    exact Or.inl ⟨s, by rw [hes], hy⟩

namespace Draft

theorem not_mem_of_place_unknown {k : String} : {fs : List (Field m)} → {d : Draft fs} →
    place fs k d = .unknown → k ∉ fs.map Field.key
  | [], _, _ => List.not_mem_nil
  | f :: fs, (y, d), h => by
      rw [place] at h
      by_cases hk : k = f.key
      · rw [if_pos hk] at h
        split at h <;> cases h
      · rw [if_neg hk] at h
        have hplace : place fs k d = .unknown := by
          split at h
          · assumption
          · cases h
          · cases h
        rw [List.map_cons, List.mem_cons, not_or]
        exact ⟨hk, not_mem_of_place_unknown hplace⟩

/-- A key of no field makes no difference. -/
theorem awaits_of_not_mem {k : String} {s : σ} {es : List (String × σ)} :
    {fs : List (Field m)} → {d : Draft fs} → {t : Tuple fs} → k ∉ fs.map Field.key →
      (Awaits R fs d t ((k, s) :: es) ↔ Awaits R fs d t es)
  | [], _, _, _ => Iff.rfl
  | f :: fs, (y, d), (x, t), h => by
      rw [List.map_cons, List.mem_cons, not_or] at h
      rw [Awaits, Awaits, Field.awaits_of_ne h.1, awaits_of_not_mem h.2]

/-- One entry: what the place of its key in the draft says about the entries behind it. -/
theorem awaits_cons {k : String} {s : σ} {es : List (String × σ)} :
    {fs : List (Field m)} → (fs.map Field.key).Nodup → (d : Draft fs) → (t : Tuple fs) →
      (Awaits R fs d t ((k, s) :: es) ↔
        match place fs k d with
        | .unknown => Awaits R fs d t es
        | .taken => False
        | .free f store => ∃ x, R f s x ∧ Awaits R fs (store x) t es)
  | [], _, _, _ => Iff.rfl
  | f :: fs, hkeys, (y, d), (x, t) => by
      rw [List.map_cons, List.nodup_cons] at hkeys
      by_cases hk : k = f.key
      · subst hk
        rw [Awaits, awaits_of_not_mem hkeys.1]
        cases y with
        | some y =>
            simp only [place, if_true, Option.isSome_some, iff_false, not_and]
            intro h
            obtain ⟨-, hes⟩ := h
            rw [valuesAt_self] at hes
            cases hes
        | none =>
            simp only [place, if_true, Option.isSome_none, Bool.false_eq_true, if_false]
            rw [Field.awaits_free]
            constructor
            · intro h
              obtain ⟨⟨z, hz, hy⟩, hd⟩ := h
              exact ⟨z, hz, hy, hd⟩
            · intro h
              obtain ⟨z, hz, hy, hd⟩ := h
              exact ⟨⟨z, hz, hy⟩, hd⟩
      · rw [Awaits, Field.awaits_of_ne hk, awaits_cons hkeys.2 d t]
        simp only [place, if_neg hk]
        cases place fs k d with
        | unknown => exact Iff.rfl
        | taken => simp
        | free g store =>
            constructor
            · intro h
              obtain ⟨hy, z, hz, hd⟩ := h
              exact ⟨z, hz, hy, hd⟩
            · intro h
              obtain ⟨z, hz, hy, hd⟩ := h
              exact ⟨hy, z, hz, hd⟩

/-- No entry is left: the defaults are filled in. -/
theorem awaits_nil : (fs : List (Field m)) → (d : Draft fs) → (t : Tuple fs) →
    (Awaits R fs d t [] ↔ finish fs d = .ok t)
  | [], _, _ => by simp [Awaits, finish]
  | f :: fs, (y, d), (x, t) => by
      rw [Awaits, awaits_nil fs d t]
      have hrest : ∀ z : f.Ty, (do return (z, ← finish fs d) : Except Error (Tuple (f :: fs)))
          = .ok (x, t) ↔ z = x ∧ finish fs d = .ok t := by
        intro z
        cases finish fs d with
        | error e => simp [bind, Except.bind]
        | ok u => simp [bind, Except.bind, pure, Except.pure]
      cases y with
      | some y =>
          rw [finish, hrest]
          simp [Field.Awaits, valuesAt]
      | none =>
          cases habsent : f.absent with
          | some z =>
              simp only [finish, habsent, hrest]
              simp [Field.Awaits, valuesAt, habsent]
          | none =>
              simp [finish, habsent, Field.Awaits, valuesAt]

end Draft

end Adorn.Wire
