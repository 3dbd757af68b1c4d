import Adorn.Proofs.Synthesis.Names

/-!
# Names under padding

A token is trimmed when it is resolved and its name is trimmed again
when it is used. The two places agree: what is left of a token depends
only on what stands between the blanks around it (`Text.trim_padded`),
and a resolved name (`Name.Resolved`) has nothing left to trim, so it
resolves to itself and synthesis takes it as it is.
-/

namespace Adorn

/-! ## Blanks around tokens -/

/-- The tokens on the right are those on the left, with blanks around any of them and blank tokens
among them. -/
inductive Padded : List String → List String → Prop where
  | nil : Padded [] []
  | blank {raw : String} {raws raws' : List String} (hraw : Text.AllBlank raw)
      (h : Padded raws raws') : Padded raws (raw :: raws')
  | token {b raw b' : String} {raws raws' : List String} (hb : Text.AllBlank b)
      (hb' : Text.AllBlank b') (h : Padded raws raws') :
      Padded (raw :: raws) ((b ++ raw ++ b') :: raws')

/-! ## Resolved names -/

/-- A name that has been resolved: there is something of it and nothing to trim, and the options put
it where it is. Bindings come before markers. -/
structure Name.Resolved (o : Options) (n : Name) : Prop where
  nonempty : n.text ≠ ""
  trimmed : Text.trim n.text = n.text
  binding : n = .binding n.text ↔ o.isBinding n.text = true
  marker : n = .marker n.text ↔ o.isMarker n.text = true ∧ o.isBinding n.text = false
  call : n = .call n.text ↔ o.isBinding n.text = false ∧ o.isMarker n.text = false

namespace Name

theorem classify?_resolved {o : Options} {raw : String} {n : Name}
    (h : classify? o raw = some n) : n.Resolved o := by
  have hplaced := placed_of_classify? h
  have hne : n.text ≠ "" := fun hempty => Option.some_ne_none n (hplaced.dropped.mpr hempty)
  have htrim : Text.trim n.text = n.text := by rw [text_of_classify? h, Text.trim_trim]
  refine ⟨hne, htrim, ?_, ?_, ?_⟩
  · simpa [hne] using hplaced.binding
  · simpa [hne, and_comm] using hplaced.marker
  · simpa [hne] using hplaced.call

namespace Resolved

variable {o : Options} {n : Name}

theorem not_blank (h : n.Resolved o) : Text.isBlankText n.text = false := by
  rw [← Text.trim_ne_empty, h.trimmed]
  exact h.nonempty

/-- A resolved name resolves to itself. -/
theorem classify?_text (h : n.Resolved o) : classify? o n.text = some n := by
  have hplaced := classify?_placed o n.text
  rw [h.trimmed] at hplaced
  cases n with
  | binding t => exact hplaced.binding.mpr ⟨h.nonempty, h.binding.mp rfl⟩
  | marker t =>
      obtain ⟨hmarker, hbinding⟩ := h.marker.mp rfl
      exact hplaced.marker.mpr ⟨h.nonempty, by simp [hbinding], hmarker⟩
  | call t =>
      obtain ⟨hbinding, hmarker⟩ := h.call.mp rfl
      exact hplaced.call.mpr ⟨h.nonempty, by simp [hbinding], by simp [hmarker]⟩

end Resolved

end Name

namespace Member

/-! ## Resolving -/

theorem ofNames_value (o : Options) (raws : List String) :
    (ofNames o raws).value = .ofResolved (raws.filterMap (Name.classify? o)) := by
  rw [← resolve_value]
  rfl

theorem resolved_of_mem {o : Options} {raws : List String} {n : Name}
    (hn : n ∈ (ofNames o raws).value.names) : n.Resolved o := by
  rw [ofNames_value] at hn
  obtain ⟨raw, -, hclassify⟩ := List.mem_filterMap.mp hn
  exact Name.classify?_resolved hclassify

theorem filterMap_padded (o : Options) {raws raws' : List String} (h : Padded raws raws') :
    raws'.filterMap (Name.classify? o) = raws.filterMap (Name.classify? o) := by
  induction h with
  | nil => rfl
  | blank hraw _ ih => rw [List.filterMap_cons_none (Name.classify?_blank o hraw), ih]
  | token hb hb' _ ih =>
      rw [List.filterMap_cons, List.filterMap_cons,
        Name.classify?_congr (Text.trim_padded hb hb' _) rfl rfl, ih]

theorem ofNames_padded (o : Options) {raws raws' : List String} (h : Padded raws raws') :
    (ofNames o raws').value = (ofNames o raws).value := by
  rw [ofNames_value, ofNames_value, filterMap_padded o h]

/-- Names that are all resolved are resolved to themselves. -/
theorem filterMap_resolved {o : Options} {ns : List Name} (h : ∀ n ∈ ns, n.Resolved o) :
    (ns.map Name.text).filterMap (Name.classify? o) = ns := by
  induction ns with
  | nil => rfl
  | cons n ns ih =>
      obtain ⟨hn, hns⟩ := List.forall_mem_cons.mp h
      rw [List.map_cons, List.filterMap_cons_some hn.classify?_text, ih hns]

/-! ## Synthesis -/

/-- The decorators of a name as it stands, neither trimmed nor looked at. -/
def decoratorsAsIs (m : Member) (n : Name) : Traced (List Spec) := do
  let specs ← match n with
    | .binding t => pure (Rules.bindingDecorators t m)
    | .marker t => pure (Rules.markerDecorators (some t))
    | .call t => Rules.callDecorators t m
  Traced.recordAll (specs.map .synthesized)
  return specs

theorem decoratorsFor_resolved (m : Member) {o : Options} {n : Name} (h : n.Resolved o) :
    m.decoratorsFor n = m.decoratorsAsIs n := by
  have hblank : ¬Text.isBlankText n.text = true := by simp [h.not_blank]
  unfold decoratorsFor decoratorsAsIs
  rw [if_neg hblank]
  cases n with
  | binding t | marker t | call t =>
      have htrim : Text.trim t = t := h.trimmed
      simp only [Name.text, htrim]

theorem synthesize_resolved {m : Member} {o : Options} (h : ∀ n ∈ m.names, n.Resolved o) :
    m.synthesize.value
      = if m.isVolatile then [] else m.names.flatMap fun n => (m.decoratorsAsIs n).value := by
  cases hm : m.isVolatile with
  | true => rw [synthesize_volatile hm, if_pos rfl]
  | false =>
      have hall : m.actionable = m.names :=
        List.filter_eq_self.mpr fun n hn => by simp [(h n hn).not_blank]
      have hblock : ∀ n ∈ m.names, m.block n = (m.decoratorsAsIs n).value := by
        intro n hn
        rw [← decoratorsFor_resolved m (h n hn), decoratorsFor_value hm,
          if_neg (by simp [(h n hn).not_blank])]
      rw [synthesize_value hm, hall, if_neg Bool.false_ne_true]
      exact List.flatMap_congr hblock

/-- Resolving is stable. Blanks around tokens and blank tokens make no difference, to the names or to
what is synthesized from them; a resolved name is trimmed and in its category, and resolves to itself;
and synthesis, which trims once more and passes over blank names, does as if it did neither. -/
theorem names_stable (o : Options) (raws : List String) :
    (∀ raws', Padded raws raws' →
      (ofNames o raws').value = (ofNames o raws).value
      ∧ ∀ m : Member, { m with names := (ofNames o raws').value.names }.synthesize
        = { m with names := (ofNames o raws).value.names }.synthesize)
    ∧ (∀ n ∈ (ofNames o raws).value.names, n.Resolved o)
    ∧ (ofNames o ((ofNames o raws).value.names.map Name.text)).value = (ofNames o raws).value
    ∧ ∀ m : Member, m.names = (ofNames o raws).value.names →
      (∀ n ∈ m.names, m.decoratorsFor n = m.decoratorsAsIs n)
      ∧ m.synthesize.value
        = if m.isVolatile then [] else m.names.flatMap fun n => (m.decoratorsAsIs n).value := by
  have hresolved : ∀ n ∈ (ofNames o raws).value.names, n.Resolved o := fun _ => resolved_of_mem
  refine ⟨fun raws' h => ?_, hresolved, ?_, fun m hm => ?_⟩
  · have hvalue := ofNames_padded o h
    exact ⟨hvalue, fun m => by rw [hvalue]⟩
  · have hself := filterMap_resolved hresolved
    rw [ofNames_value, hself, ofNames_value]
    rfl
  · rw [← hm] at hresolved
    exact ⟨fun n hn => decoratorsFor_resolved m (hresolved n hn), synthesize_resolved hresolved⟩

/-- Blanks of several kinds around two tokens, and two tokens of blanks. -/
def paddedTokens : List String :=
  ["\u2003", "\tcomputed\u00a0", "", " action"]

theorem paddedTokens_padded : Padded ["computed", "action"] paddedTokens := by
  have hblank : ∀ {s : String}, Text.isBlankText s = true → Text.AllBlank s :=
    Text.isBlankText_iff.mp
  have haction : Padded ["action"] [" " ++ "action" ++ ""] :=
    .token (hblank (by decide)) (hblank (by decide)) .nil
  have hcomputed : Padded ["computed", "action"]
      ["\t" ++ "computed" ++ "\u00a0", "", " " ++ "action" ++ ""] :=
    .token (hblank (by decide)) (hblank (by decide)) (.blank (hblank (by decide)) haction)
  exact .blank (hblank (by decide)) hcomputed

/-- The member that has both names, and a modifier behind the called one. -/
def bothNamed : Member :=
  { ofResolved [.call "computed", .marker "action"] with modifiers := [⟨"readOnly", []⟩] }

theorem paddedTokens_stable :
    Padded ["computed", "action"] paddedTokens
      ∧ (ofNames Options.default paddedTokens).value
        = .ofResolved [.call "computed", .marker "action"]
      ∧ Name.Resolved Options.default (.marker "action")
      ∧ bothNamed.names = (ofNames Options.default ["computed", "action"]).value.names
      ∧ bothNamed.decoratorsFor (.marker "action") = bothNamed.decoratorsAsIs (.marker "action") := by
  obtain ⟨hpadded, hresolved, -, hsynthesis⟩ :=
    names_stable Options.default ["computed", "action"]
  have hvalue : (ofNames Options.default ["computed", "action"]).value
      = .ofResolved [.call "computed", .marker "action"] := by decide +kernel
  have hnames : bothNamed.names = (ofNames Options.default ["computed", "action"]).value.names := by
    rw [hvalue]
    rfl
  have hmarker : Name.marker "action" ∈ bothNamed.names := by simp [bothNamed, ofResolved]
  refine ⟨paddedTokens_padded, (hpadded _ paddedTokens_padded).1.trans hvalue, ?_, hnames, ?_⟩
  · exact hresolved _ (hnames ▸ hmarker)
  · exact (hsynthesis bothNamed hnames).1 _ hmarker

end Member

end Adorn
