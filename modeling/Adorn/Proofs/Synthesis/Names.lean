import Adorn.Proofs.MemberDocument
import Adorn.Proofs.Synthesis.Blocks

/-!
# Where the names of decorators come from

A decorator that has no name would be written as a lone `@`. None is
ever made from a document: a blank modifier is refused, a blank token
is dropped when the names are resolved, and what is left of a token
still stands when synthesis trims it once more. The name of a decorator
is a token of the document without the blanks around it, or the
property of one of its modifiers as it was written.
-/

namespace Adorn

namespace Member

/-! ## Names in the output -/

/-- A decorator bears a name of the member that is not blank, or the property of a modifier. -/
theorem name_of_mem_synthesize {m : Member} {s : Spec} (hs : s ∈ m.synthesize.value) :
    (∃ n ∈ m.names, Text.isBlankText n.text = false ∧ s.name = Text.trim n.text)
      ∨ ∃ modifier ∈ m.modifiers, s.name = modifier.property := by
  cases hm : m.isVolatile with
  | true =>
      rw [synthesize_volatile hm] at hs
      cases hs
  | false =>
      rw [synthesize_value hm] at hs
      obtain ⟨n, hn, hblock⟩ := List.mem_flatMap.mp hs
      obtain ⟨hmem, hblank⟩ := mem_actionable.mp hn
      have hown : s.name = Text.trim n.text → ∃ n ∈ m.names,
          Text.isBlankText n.text = false ∧ s.name = Text.trim n.text :=
        fun hname => ⟨n, hmem, hblank, hname⟩
      cases n with
      | binding t =>
          rw [block, bindingDecorators_eq, List.mem_singleton] at hblock
          exact Or.inl (hown (by rw [hblock]; rfl))
      | marker t =>
          rw [block, Rules.markerDecorators, List.mem_singleton] at hblock
          exact Or.inl (hown (by rw [hblock]; rfl))
      | call t =>
          rcases List.mem_cons.mp hblock with hhead | hchained
          · exact Or.inl (hown (by rw [hhead]; rfl))
          · obtain ⟨modifier, hmodifier, rfl⟩ := List.mem_map.mp hchained
            exact Or.inr ⟨modifier, hmodifier, modifier.gives_decorator.name⟩

/-! ## Names of a document -/

theorem ofText_eq_ok {o : Options} {text : String} {x : Traced Member} :
    ofText o text = .ok x ↔
      ∃ d, Draft.decoder.run text = .ok d ∧ d.emptyModifier? = none ∧ x = d.resolve o := by
  cases hrun : Draft.decoder.run text with
  | error cause =>
      rw [ofText_malformed hrun]
      simp
  | ok d =>
      cases hempty : d.emptyModifier? with
      | some i =>
          rw [ofText_blank hrun hempty]
          simp [hempty]
      | none =>
          rw [ofText_resolved hrun hempty]
          simp [hempty, eq_comm]

theorem Draft.modifiers_not_blank {d : Draft} (h : d.emptyModifier? = none) {modifier : Modifier}
    (hmem : modifier ∈ d.modifiers) : Text.isBlankText modifier.property = false := by
  rw [Draft.emptyModifier?, List.findIdx?_eq_none_iff] at h
  exact h modifier hmem

/-- A resolved name is a token of the draft, trimmed. -/
theorem Draft.token_of_name {o : Options} {d : Draft} {n : Name}
    (hn : n ∈ (d.resolve o).value.names) : ∃ raw, some raw ∈ d.names ∧ n.text = Text.trim raw := by
  rw [Draft.resolve_value] at hn
  obtain ⟨raw, hraw, hclassify⟩ := List.mem_filterMap.mp hn
  obtain ⟨token, htoken, rfl⟩ := List.mem_filterMap.mp hraw
  exact ⟨raw, htoken, Name.text_of_classify? hclassify⟩

/-- No decorator of a member that was read from a document has a blank name. Each bears a token of the
document, without the blanks around it, or the property of one of its modifiers, as it stands. -/
theorem synthesize_names_of_ofText (o : Options) (text : String) (x : Traced Member)
    (h : ofText o text = .ok x) :
    ∃ d, Draft.decoder.run text = .ok d ∧ ∀ s ∈ x.value.synthesize.value,
      Text.trim s.name ≠ ""
      ∧ ((∃ raw, some raw ∈ d.names ∧ Text.Stripped raw s.name)
        ∨ ∃ modifier ∈ d.modifiers, s.name = modifier.property) := by
  obtain ⟨d, hrun, hempty, rfl⟩ := ofText_eq_ok.mp h
  refine ⟨d, hrun, fun s hs => ?_⟩
  rcases name_of_mem_synthesize hs with ⟨n, hn, hblank, hname⟩ | ⟨modifier, hmodifier, hname⟩
  · -- The token was trimmed when it was resolved; synthesis trims it once more, to no effect.
    obtain ⟨raw, hraw, htext⟩ := Draft.token_of_name hn
    have hstripped : s.name = Text.trim raw := by rw [hname, htext, Text.trim_trim]
    refine ⟨?_, Or.inl ⟨raw, hraw, hstripped ▸ Text.trim_stripped raw⟩⟩
    rw [hstripped, ← htext, Text.trim_ne_empty]
    exact hblank
  · rw [Draft.resolve_value] at hmodifier
    refine ⟨?_, Or.inr ⟨modifier, hmodifier, hname⟩⟩
    rw [hname, Text.trim_ne_empty]
    exact Draft.modifiers_not_blank hempty hmodifier

/-- Tokens with blanks of several kinds around them, a null and a token of blanks alone, and a
modifier whose blanks are part of its property. -/
def paddedText : String :=
  "\x7b\"decoratorNames\":[\"\\u2003computed \",null,\"\\u00a0\",\"\\taction\"],"
    ++ "\"modifiers\":[\x7b\"property\":\" readOnly \"\x7d]\x7d"

theorem paddedText_names :
    ∃ x, ofText Options.default paddedText = .ok x
      ∧ x.value.synthesize.value.map Spec.name = ["computed", " readOnly ", "action"]
      ∧ ∃ d, Draft.decoder.run paddedText = .ok d ∧ ∀ s ∈ x.value.synthesize.value,
        Text.trim s.name ≠ ""
        ∧ ((∃ raw, some raw ∈ d.names ∧ Text.Stripped raw s.name)
          ∨ ∃ modifier ∈ d.modifiers, s.name = modifier.property) := by
  have hnames : ((ofText Options.default paddedText).map fun x =>
      x.value.synthesize.value.map Spec.name).toOption
        = some ["computed", " readOnly ", "action"] := by decide +kernel
  cases hx : ofText Options.default paddedText with
  | error e =>
      rw [hx] at hnames
      cases hnames
  | ok x =>
      rw [hx] at hnames
      exact ⟨x, rfl, Option.some.inj hnames, synthesize_names_of_ofText _ _ x hx⟩

end Member

end Adorn
