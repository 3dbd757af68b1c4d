import Adorn.Proofs.RoundTrip
import Adorn.Proofs.Wire.Levels

/-!
# Canonical texts

A value can be written in many ways: with other blanks and escapes, its
fields in another order or as a list, tags as numbers, defaults left
out, unknown keys added. The compact text of what has been read is the
canonical one among them. Whether it is itself accepted is a matter of
nesting alone: encoding spells out what the document left out, so the
canonical text might nest too deep where the document did not.

The tree of an expression nests no deeper than any tree that represents
it (`RepresentsParts.nesting_le`), and no decoder reads a tree that is
deeper than its levels. The arguments of a modifier are the one list
that is written where a document may have none; an empty list fits,
because a modifier is read with more than one level left.
-/

namespace Adorn

open Json Json.Reader Wire

/-! ## Trees that represent something -/

section

variable {kind : String} {fields : List (String × Value)}

theorem taggedObject_nesting_le {n : Nat} (h : ∀ f ∈ fields, f.2.nesting ≤ n) :
    (taggedObject kind fields).nesting ≤ n + 1 := by
  have htag : (Value.string kind).nesting ≤ n := by
    rw [Value.nesting]
    exact Nat.zero_le n
  rw [taggedObject, Value.nesting]
  exact Nat.succ_le_succ (nestingEntries_le (List.forall_mem_cons.mpr ⟨htag, h⟩))

/-- An object of the fields that a body supplies. -/
theorem taggedObject_nesting_le_body {body : Body} (h : body.Supplies fields) :
    (taggedObject kind fields).nesting ≤ body.nesting + 1 :=
  taggedObject_nesting_le fun _ hf => h.nesting_le hf

theorem array_nesting_le {vs ws : List Value} (h : nestingItems vs ≤ nestingItems ws) :
    (Value.array vs).nesting ≤ (Value.array ws).nesting := by
  rw [Value.nesting, Value.nesting]
  exact Nat.succ_le_succ h

end

mutual

/-- Written out in full, an expression nests no deeper than the parts it was read from. -/
theorem RepresentsParts.nesting_le {k : Expr.Kind} {body : Body} : (e : Expr) →
    RepresentsParts k body e → e.toValue.nesting ≤ body.nesting + 1
  | .string _, .string h | .number _, .number h | .boolean _, .boolean h | .null, .null h
  | .template _, .template h | .identifier _, .identifier h | .function _ _ _, .function h
  | .arrow _ _, .arrow h | .raw _, .raw h => by
      rw [Expr.toValue]
      exact taggedObject_nesting_le_body h
  | .array es, .array h hes => by
      have hitems := array_nesting_le (RepresentsAll.nesting_le es hes)
      have harray := h.nesting_le (List.mem_singleton.mpr rfl)
      rw [Expr.toValue]
      exact taggedObject_nesting_le (List.forall_mem_singleton.mpr (Nat.le_trans hitems harray))
  | .object qs, .object h hqs => by
      have hitems := array_nesting_le (RepresentsProperties.nesting_le qs hqs)
      have harray := h.nesting_le (List.mem_singleton.mpr rfl)
      rw [Expr.toValue]
      exact taggedObject_nesting_le (List.forall_mem_singleton.mpr (Nat.le_trans hitems harray))
  | .call f es, .call h ⟨hnode, hparts⟩ hes => by
      have hf := RepresentsParts.nesting_le f hparts
      have hcallee := h.nesting_le (List.mem_cons_self ..)
      have hitems := array_nesting_le (RepresentsAll.nesting_le es hes)
      have harray := h.nesting_le (List.mem_cons_of_mem _ (List.mem_singleton.mpr rfl))
      have hbody := hnode.nesting_lt
      rw [Expr.toValue]
      refine taggedObject_nesting_le (List.forall_mem_cons.mpr ⟨?_, ?_⟩)
      · show f.toValue.nesting ≤ body.nesting
        omega
      · exact List.forall_mem_singleton.mpr (Nat.le_trans hitems harray)
  | .access e q, .access h ⟨hnode, hparts⟩ => by
      have he := RepresentsParts.nesting_le e hparts
      have hobject := h.nesting_le (List.mem_cons_self ..)
      have hproperty := h.nesting_le (List.mem_cons_of_mem _ (List.mem_singleton.mpr rfl))
      have hbody := hnode.nesting_lt
      rw [Expr.toValue]
      refine taggedObject_nesting_le (List.forall_mem_cons.mpr ⟨?_, ?_⟩)
      · show e.toValue.nesting ≤ body.nesting
        omega
      · exact List.forall_mem_singleton.mpr hproperty
  | .function _ _ _, .anonymous _ h => by
      -- The name that is left out is written as null, which adds no level.
      have hname : (nullableString none).nesting ≤ body.nesting := by
        rw [nullableString, Value.nesting]
        exact Nat.zero_le _
      rw [Expr.toValue]
      exact taggedObject_nesting_le (List.forall_mem_cons.mpr ⟨hname, fun _ hf => h.nesting_le hf⟩)

theorem RepresentsAll.nesting_le {vs : List Value} : (es : List Expr) → RepresentsAll vs es →
    nestingItems (Expr.toValues es) ≤ nestingItems vs
  | [], _ => by
      rw [Expr.toValues, nestingItems]
      exact Nat.zero_le _
  | e :: es, .cons ⟨hnode, hparts⟩ hes => by
      have he := RepresentsParts.nesting_le e hparts
      have hbody := hnode.nesting_lt
      have hrest := RepresentsAll.nesting_le es hes
      rw [Expr.toValues, nestingItems, nestingItems]
      omega

theorem RepresentsProperty.nesting_le {v : Value} : (q : Property) → RepresentsProperty v q →
    q.toValue.nesting ≤ v.nesting
  | .mk x e, .mk hof h ⟨hkeyNode, hkeyParts⟩ ⟨hnode, hparts⟩ => by
      have hx := RepresentsKeyParts.nesting_le x hkeyParts
      have he := RepresentsParts.nesting_le e hparts
      have hkey := h.nesting_le (List.mem_cons_self ..)
      have hvalue := h.nesting_le (List.mem_cons_of_mem _ (List.mem_singleton.mpr rfl))
      have hkeyBody := hkeyNode.nesting_lt
      have hbody := hnode.nesting_lt
      have hlt := hof.nesting_lt
      simp only [Property.toValue, Value.nesting, nestingEntries]
      omega

theorem RepresentsProperties.nesting_le {vs : List Value} : (qs : List Property) →
    RepresentsProperties vs qs → nestingItems (Property.toValues qs) ≤ nestingItems vs
  | [], _ => by
      rw [Property.toValues, nestingItems]
      exact Nat.zero_le _
  | q :: qs, .cons hq hqs => by
      have hfirst := RepresentsProperty.nesting_le q hq
      have hrest := RepresentsProperties.nesting_le qs hqs
      rw [Property.toValues, nestingItems, nestingItems]
      omega

theorem RepresentsKeyParts.nesting_le {k : Key.Kind} {body : Body} : (x : Key) →
    RepresentsKeyParts k body x → x.toValue.nesting ≤ body.nesting + 1
  | .identifier _, .identifier h | .string _, .string h => by
      rw [Key.toValue]
      exact taggedObject_nesting_le_body h
  | .computed e, .computed h ⟨hnode, hparts⟩ => by
      have he := RepresentsParts.nesting_le e hparts
      have hexpr := h.nesting_le (List.mem_singleton.mpr rfl)
      have hbody := hnode.nesting_lt
      rw [Key.toValue]
      refine taggedObject_nesting_le (List.forall_mem_singleton.mpr ?_)
      show e.toValue.nesting ≤ body.nesting
      omega

end

/-! ## What decoders read -/

theorem Expr.decoder_yields (levels : Nat) :
    (Expr.decoder levels).Yields fun e => e.toValue.nesting ≤ levels := by
  refine Decoder.bind_yields (Expr.kinds.decode_yields levels) fun ⟨k, body⟩ hbody => ?_
  intro s e rest hrun
  obtain ⟨hofBody, -⟩ := Decoder.lift_eq_ok.mp hrun
  have hparts := ((Expr.ofValue_decodes _).parts (Nat.lt_succ_self _)).mp hofBody
  exact Nat.le_trans (hparts.nesting_le e) hbody

theorem Key.decoder_yields (levels : Nat) :
    (Key.decoder levels).Yields fun x => x.toValue.nesting ≤ levels := by
  refine Decoder.bind_yields (Key.kinds.decode_yields levels) fun ⟨k, body⟩ hbody => ?_
  intro s x rest hrun
  obtain ⟨hofBody, -⟩ := Decoder.lift_eq_ok.mp hrun
  have hparts := ((Expr.ofValue_decodes _).keyParts (Nat.lt_succ_self _)).mp hofBody
  exact Nat.le_trans (hparts.nesting_le x) hbody

/-- A list nests one level more than its items, which were read with one level less. -/
theorem Wire.Decoder.list_nesting_yields {α : Type} {d : Decoder α} {encode : α → Value}
    (hd : ∀ levels, (d levels).Yields fun x => (encode x).nesting ≤ levels) (levels : Nat) :
    (Decoder.list d levels).Yields fun xs => (Value.array (xs.map encode)).nesting ≤ levels := by
  intro s xs rest hrun
  obtain ⟨l, rfl, hxs⟩ := Decoder.list_yields hd s xs rest hrun
  rw [Value.nesting]
  refine Nat.succ_le_succ (nestingItems_le fun v hv => ?_)
  obtain ⟨x, hx, rfl⟩ := List.mem_map.mp hv
  exact hxs x hx

theorem Expr.list_yields (levels : Nat) :
    (Decoder.list Expr.decoder levels).Yields
      fun es => (Value.array (Expr.toValues es)).nesting ≤ levels := by
  simp only [Expr.toValues_eq_map]
  exact Decoder.list_nesting_yields Expr.decoder_yields levels

theorem Property.decoder_yields (levels : Nat) :
    (Property.decoder levels).Yields fun q => q.toValue.nesting ≤ levels := by
  refine Decoder.bind_yields (Decoder.record_yields _ _ levels) ?_
  rintro ⟨x, e, u⟩ ⟨l, rfl, hx, he, -⟩
  refine Yields.pure ?_
  have hkey := hx.elim (Key.decoder_yields l) nofun nofun
  have hvalue := he.elim (Expr.decoder_yields l) nofun nofun
  simp only [Property.toValue, Value.nesting, nestingEntries]
  omega

theorem ClassProperty.decoder_yields (levels : Nat) :
    (ClassProperty.decoder levels).Yields fun c => c.toValue.nesting ≤ levels := by
  refine Decoder.bind_yields (Decoder.record_yields _ _ levels) ?_
  rintro ⟨name, e, u⟩ ⟨l, rfl, -, he, -⟩
  refine Yields.pure ?_
  have hvalue := he.elim (Expr.decoder_yields l) nofun nofun
  simp only [ClassProperty.toValue, Value.nesting, nestingEntries]
  omega

theorem Spec.decoder_yields (levels : Nat) :
    (Spec.decoder levels).Yields fun s => s.toValue.nesting ≤ levels := by
  refine Decoder.bind_yields (Decoder.record_yields _ _ levels) ?_
  rintro ⟨name, arguments, u⟩ ⟨l, rfl, -, hx, -⟩
  refine Yields.pure ?_
  have hlist := hx.elim (Decoder.nullable_yields (Expr.list_yields l))
    (by rintro _ ⟨⟩ es ⟨⟩) nofun
  cases arguments with
  | none => simp [Spec.toValue, Value.nesting, nestingEntries]
  | some es =>
      have hes := hlist es rfl
      simp only [Spec.toValue, Value.nesting, nestingEntries] at hes ⊢
      omega

/-- Arguments that a document leaves out are written as an empty list, which takes a level of its
own. -/
theorem Modifier.decoder_yields {levels : Nat} (hlevels : 2 ≤ levels) :
    (Modifier.decoder levels).Yields fun m => m.toValue.nesting ≤ levels := by
  refine Decoder.bind_yields (Decoder.record_yields _ _ levels) ?_
  rintro ⟨property, args, u⟩ ⟨l, rfl, -, hx, -⟩
  refine Yields.pure ?_
  have hempty : (Value.array (Expr.toValues [])).nesting ≤ l := by
    rw [Expr.toValues, Value.nesting, nestingItems]
    omega
  have hargs := hx.elim (Decoder.orDefault_yields (Expr.list_yields l) hempty)
    (by rintro _ ⟨⟩; exact hempty) (by rintro _ ⟨⟩; exact hempty)
  simp only [Modifier.toValue, Value.nesting, nestingEntries] at hargs ⊢
  omega

namespace Payload

theorem decoder_yields (k : Payload) {levels : Nat} (hlevels : 2 ≤ levels) :
    (k.decoder levels).Yields fun x => (k.encode x).nesting ≤ levels := by
  cases k with
  | expr => exact Expr.decoder_yields levels
  | exprs => exact Expr.list_yields levels
  | key => exact Key.decoder_yields levels
  | property => exact Property.decoder_yields levels
  | modifier => exact Modifier.decoder_yields hlevels
  | classProperty => exact ClassProperty.decoder_yields levels
  | spec => exact Spec.decoder_yields levels
  | specs => exact Decoder.list_nesting_yields Spec.decoder_yields levels

/-! ## The canonical text -/

/-- The compact text of the value that a text is decoded as. -/
def canonicalText (k : Payload) (text : String) : Except Error String := do
  return (k.encode (← k.decoder.run text)).text

section

variable {k : Payload} {text : String} {x : k.Carrier}

theorem canonicalText_eq_ok {c : String} :
    k.canonicalText text = .ok c ↔ ∃ x, k.decoder.run text = .ok x ∧ (k.encode x).text = c := by
  refine bind_eq_ok.trans ⟨?_, ?_⟩
  · rintro ⟨x, hx, ⟨⟩⟩
    exact ⟨x, hx, rfl⟩
  · rintro ⟨x, hx, rfl⟩
    exact ⟨x, hx, rfl⟩

theorem nesting_le_of_run (h : k.decoder.run text = .ok x) :
    (k.encode x).nesting ≤ maxNesting := by
  obtain ⟨b, hrun, -⟩ := Decoder.run_eq_ok.mp h
  exact k.decoder_yields (by decide) text.toList x b hrun

/-- What has been read once is read again off its compact text. -/
theorem run_text_of_run (h : k.decoder.run text = .ok x) :
    k.decoder.run (k.encode x).text = .ok x := by
  have hreads := k.decoder_decodes x _ (.chars (k.encode_whole x))
  have hrun := Decoder.run_of_reads hreads .nil .nil (k.encode x).text_toList
  rw [hrun, if_pos (nesting_le_of_run h)]

end

/-- Whatever text is accepted, the compact text of its value nests at most 127 levels and is accepted
for the same value. So the canonical text of a canonical text is that text again, and two accepted
texts have the same canonical text exactly if they are decoded as the same value. -/
theorem canonical_accepted (k : Payload) :
    (∀ text x, k.decoder.run text = .ok x →
      (k.encode x).nesting ≤ 127 ∧ k.decoder.run (k.encode x).text = .ok x)
    ∧ (∀ text c, k.canonicalText text = .ok c → k.canonicalText c = .ok c)
    ∧ ∀ text text' x x', k.decoder.run text = .ok x → k.decoder.run text' = .ok x' →
      (k.canonicalText text = k.canonicalText text' ↔ x = x') := by
  refine ⟨fun text x h => ⟨nesting_le_of_run h, run_text_of_run h⟩, ?_, ?_⟩
  · intro text c hc
    obtain ⟨x, hx, rfl⟩ := canonicalText_eq_ok.mp hc
    exact canonicalText_eq_ok.mpr ⟨x, run_text_of_run hx, rfl⟩
  · intro text text' x x' hx hx'
    have hc := canonicalText_eq_ok.mpr ⟨x, hx, rfl⟩
    have hc' := canonicalText_eq_ok.mpr ⟨x', hx', rfl⟩
    rw [hc, hc']
    constructor
    · intro heq
      have htext : (k.encode x).text = (k.encode x').text := Except.ok.inj heq
      have hagain := run_text_of_run hx
      rw [htext, run_text_of_run hx'] at hagain
      exact (Except.ok.inj hagain).symm
    · rintro rfl
      rfl

/-- A modifier as a list that ends before the arguments. -/
def briefModifier : String := "[\"ab\"]"

/-- The same modifier with null for its arguments, an escape, and a key of no meaning. -/
def looseModifier : String := " \x7b\"args\":null , \"x\":[[1]], \"property\":\"a\\u0062\"\x7d "

/-- The same modifier as it is encoded. -/
def compactModifier : String := "\x7b\"property\":\"ab\",\"args\":[]\x7d"

theorem modifier_canonical :
    (modifier.decoder.run briefModifier = .ok ⟨"ab", []⟩
      ∧ modifier.decoder.run looseModifier = .ok ⟨"ab", []⟩)
    ∧ modifier.decoder.run compactModifier = .ok ⟨"ab", []⟩
    ∧ modifier.canonicalText compactModifier = .ok compactModifier
    ∧ modifier.canonicalText briefModifier = modifier.canonicalText looseModifier := by
  have hbrief : modifier.decoder.run briefModifier = .ok ⟨"ab", []⟩ :=
    eq_ok_of_toOption (by decide +kernel)
  have hloose : modifier.decoder.run looseModifier = .ok ⟨"ab", []⟩ :=
    eq_ok_of_toOption (by decide +kernel)
  have hcompact : (modifier.encode ⟨"ab", []⟩).text = compactModifier := by decide +kernel
  obtain ⟨haccepted, hagain, hsame⟩ := canonical_accepted modifier
  obtain ⟨-, hback⟩ := haccepted briefModifier _ hbrief
  rw [hcompact] at hback
  exact ⟨⟨hbrief, hloose⟩, hback,
    hagain briefModifier _ (canonicalText_eq_ok.mpr ⟨_, hbrief, hcompact⟩),
    (hsame _ _ _ _ hbrief hloose).mpr rfl⟩

end Payload

end Adorn
