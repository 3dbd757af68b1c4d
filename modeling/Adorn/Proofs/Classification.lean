import Adorn.Name
import Adorn.Proofs.Text.Trimming

/-!
# Where a token goes

A token is trimmed and then looked up, among the bindings first and
then among the markers. `Name.classify?_placed` says where it goes for
every answer of the two tables, so the trimmed text and what the tables
say about it are all that counts (`Name.classify?_congr`). Whether a
token has a name, and what its text is, does not depend on the tables
(`Name.classify?_text`).
-/

namespace Adorn.Name

/-- Where a token goes that is trimmed to `t`: nowhere if nothing is left of it, and else to one of
the three categories. Bindings come before markers. -/
structure Placed (bindings markers : String → Prop) (t : String) (x : Option Name) : Prop where
  dropped : x = none ↔ t = ""
  binding : x = some (.binding t) ↔ t ≠ "" ∧ bindings t
  marker : x = some (.marker t) ↔ t ≠ "" ∧ ¬bindings t ∧ markers t
  call : x = some (.call t) ↔ t ≠ "" ∧ ¬bindings t ∧ ¬markers t

theorem classify?_placed (o : Options) (raw : String) :
    Placed (fun n => o.isBinding n = true) (fun n => o.isMarker n = true) (Text.trim raw)
      (classify? o raw) := by
  cases hblank : Text.isBlankText raw with
  | true =>
      have hempty : Text.trim raw = "" := String.isEmpty_iff.mp hblank
      constructor <;> simp [classify?, hblank, hempty]
  | false =>
      have hne : Text.trim raw ≠ "" := Text.trim_ne_empty.mpr hblank
      cases hbinding : o.isBinding (Text.trim raw) <;>
        cases hmarker : o.isMarker (Text.trim raw) <;>
          constructor <;> simp [classify?, hblank, hbinding, hmarker, hne]

theorem classify?_congr {o o' : Options} {raw raw' : String}
    (htrim : Text.trim raw = Text.trim raw')
    (hbinding : o.isBinding (Text.trim raw) = o'.isBinding (Text.trim raw))
    (hmarker : o.isMarker (Text.trim raw) = o'.isMarker (Text.trim raw)) :
    classify? o raw = classify? o' raw' := by
  simp only [classify?, Text.isBlankText, ← htrim, hbinding, hmarker]

theorem classify?_blank (o : Options) {raw : String} (h : Text.AllBlank raw) :
    classify? o raw = none :=
  (classify?_placed o raw).dropped.mpr (String.isEmpty_iff.mp (Text.isBlankText_iff.mpr h))

/-- Only the category of a name depends on the options, not whether there is one. -/
theorem classify?_text (o : Options) (raw : String) :
    (classify? o raw).map text
      = if Text.isBlankText raw then none else some (Text.trim raw) := by
  simp only [classify?]
  split
  · rfl
  · split
    · rfl
    · split <;> rfl

/-- A token has a name unless it is blank. -/
theorem classify?_isSome (o : Options) (raw : String) :
    (classify? o raw).isSome = !Text.isBlankText raw := by
  have htext := congrArg Option.isSome (classify?_text o raw)
  rw [Option.isSome_map] at htext
  rw [htext]
  cases Text.isBlankText raw <;> rfl

section

variable {o : Options} {raw : String} {n : Name}

theorem text_of_classify? (h : classify? o raw = some n) : n.text = Text.trim raw := by
  have htext := classify?_text o raw
  rw [h] at htext
  split at htext
  · cases htext
  · exact Option.some.inj htext

/-- A name is where the tables put its text. -/
theorem placed_of_classify? (h : classify? o raw = some n) :
    Placed (fun n => o.isBinding n = true) (fun n => o.isMarker n = true) n.text (some n) := by
  rw [text_of_classify? h, ← h]
  exact classify?_placed o raw

theorem classify?_binding {t : String} :
    classify? o raw = some (.binding t) ↔ Text.trim raw = t ∧ t ≠ "" ∧ o.isBinding t = true := by
  constructor
  · intro h
    exact ⟨(text_of_classify? h).symm, (placed_of_classify? h).binding.mp rfl⟩
  · rintro ⟨rfl, h⟩
    exact (classify?_placed o raw).binding.mpr h

end

end Adorn.Name
