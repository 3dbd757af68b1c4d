import Adorn.Decorator.Wire
import Adorn.Member.Document
import Adorn.Proofs.Expr.Texts
import Adorn.Proofs.Wire.Encodings

/-!
# Decoding what has been encoded

Everything that travels as JSON comes back as it was. The tree of an
expression represents it wherever it stands, so an expression is read
off any text of its tree; keys, properties, modifiers, decorators and
lists of these follow from their parts. The one thing that can go wrong
is the nesting of the text.
-/

namespace Adorn

open Json Wire

/-! ## Trees of expressions -/

section

variable {κ : Type} {t : Tagged κ} {fields : List (String × Value)}

theorem taggedObject_node (hkeys : (tagKey :: fields.map Prod.fst).Nodup) (p : Standing) (k : κ) :
    t.Node p (taggedObject (t.name k) fields) k (.keyed fields) := by
  have hne : ∀ f ∈ fields, f.1 ≠ tagKey := fun f hf heq =>
    (List.nodup_cons.mp hkeys).1 (heq ▸ List.mem_map_of_mem hf)
  have hfilter : ((tagKey, Value.string (t.name k)) :: fields).filter (fun e => e.1 ≠ tagKey)
      = fields := by
    rw [List.filter_cons_of_neg (by simp)]
    exact List.filter_eq_self.mpr fun f hf => decide_eq_true (hne f hf)
  have htag : valuesAt tagKey ((tagKey, Value.string (t.name k)) :: fields)
      = [.string (t.name k)] := valuesAt_of_nodup hkeys (List.mem_cons_self ..)
  have hnode := Tagged.Node.object (p := p) htag (.name p k)
  rwa [hfilter] at hnode

theorem taggedObject_supplies (hkeys : (tagKey :: fields.map Prod.fst).Nodup) :
    (Body.keyed fields).Supplies fields :=
  .keyed fun _ hf => valuesAt_of_nodup (List.nodup_cons.mp hkeys).2 hf

theorem taggedObject_represents (hkeys : (tagKey :: fields.map Prod.fst).Nodup) {e : Expr}
    (p : Standing) (k : Expr.Kind)
    (h : (Body.keyed fields).Supplies fields → RepresentsParts k (.keyed fields) e) :
    Represents p (taggedObject k.name fields) e :=
  .node (taggedObject_node hkeys p k) (h (taggedObject_supplies hkeys))

theorem taggedObject_representsKey (hkeys : (tagKey :: fields.map Prod.fst).Nodup) {x : Key}
    (p : Standing) (k : Key.Kind)
    (h : (Body.keyed fields).Supplies fields → RepresentsKeyParts k (.keyed fields) x) :
    RepresentsKey p (taggedObject k.name fields) x :=
  .node (taggedObject_node hkeys p k) (h (taggedObject_supplies hkeys))

end

mutual

/-- The tree of an expression represents it, wherever it stands. -/
theorem Expr.toValue_represents (p : Standing) : (e : Expr) → Represents p e.toValue e
  | .string _ => by
      rw [Expr.toValue]
      exact taggedObject_represents (by simp [tagKey]) p .stringLiteral .string
  | .number _ => by
      rw [Expr.toValue]
      exact taggedObject_represents (by simp [tagKey]) p .numericLiteral .number
  | .boolean _ => by
      rw [Expr.toValue]
      exact taggedObject_represents (by simp [tagKey]) p .booleanLiteral .boolean
  | .null => by
      rw [Expr.toValue]
      exact taggedObject_represents (by simp [tagKey]) p .nullLiteral .null
  | .template _ => by
      rw [Expr.toValue]
      exact taggedObject_represents (by simp [tagKey]) p .templateLiteral .template
  | .identifier _ => by
      rw [Expr.toValue]
      exact taggedObject_represents (by simp [tagKey]) p .identifier .identifier
  | .array es => by
      rw [Expr.toValue]
      exact taggedObject_represents (by simp [tagKey]) p .arrayLiteral
        fun h => .array h (Expr.toValues_represent es)
  | .object qs => by
      rw [Expr.toValue]
      exact taggedObject_represents (by simp [tagKey]) p .objectLiteral
        fun h => .object h (Property.toValues_represent qs)
  | .call f es => by
      rw [Expr.toValue]
      exact taggedObject_represents (by simp [tagKey]) p .callExpr
        fun h => .call h (f.toValue_represents .nested) (Expr.toValues_represent es)
  | .access e _ => by
      rw [Expr.toValue]
      exact taggedObject_represents (by simp [tagKey]) p .propertyAccess
        fun h => .access h (e.toValue_represents .nested)
  | .function _ _ _ => by
      rw [Expr.toValue]
      exact taggedObject_represents (by simp [tagKey]) p .functionExpr .function
  | .arrow _ _ => by
      rw [Expr.toValue]
      exact taggedObject_represents (by simp [tagKey]) p .arrowFunction .arrow
  | .raw _ => by
      rw [Expr.toValue]
      exact taggedObject_represents (by simp [tagKey]) p .raw .raw

theorem Expr.toValues_represent : (es : List Expr) → RepresentsAll (Expr.toValues es) es
  | [] => .nil
  | e :: es => .cons (e.toValue_represents .nested) (Expr.toValues_represent es)

theorem Property.toValue_represents : (q : Property) → RepresentsProperty q.toValue q
  | .mk k e => by
      rw [Property.toValue]
      have hkeys : (List.map Prod.fst [("key", k.toValue), ("value", e.toValue)]).Nodup := by simp
      exact .mk (.object _) (.keyed fun _ hf => valuesAt_of_nodup hkeys hf)
        (k.toValue_represents .nested) (e.toValue_represents .nested)

theorem Property.toValues_represent : (qs : List Property) →
    RepresentsProperties (Property.toValues qs) qs
  | [] => .nil
  | q :: qs => .cons q.toValue_represents (Property.toValues_represent qs)

theorem Key.toValue_represents (p : Standing) : (x : Key) → RepresentsKey p x.toValue x
  | .identifier _ => by
      rw [Key.toValue]
      exact taggedObject_representsKey (by simp [tagKey]) p .identifier .identifier
  | .string _ => by
      rw [Key.toValue]
      exact taggedObject_representsKey (by simp [tagKey]) p .stringLiteral .string
  | .computed e => by
      rw [Key.toValue]
      exact taggedObject_representsKey (by simp [tagKey]) p .computed
        fun h => .computed h (e.toValue_represents .nested)

end

/-! ## Numbers

No encoding writes a number, so every tree here is a tree of words. -/

theorem wholeItems_map {α : Type} {encode : α → Value} (h : ∀ x, (encode x).Whole) :
    (xs : List α) → WholeItems (xs.map encode)
  | [] => by simp [WholeItems]
  | x :: xs => by
      rw [List.map_cons, WholeItems]
      exact ⟨h x, wholeItems_map h xs⟩

theorem stringArray_whole (ss : List String) : (stringArray ss).Whole := by
  rw [stringArray, Value.Whole]
  exact wholeItems_map (fun s => by simp [Value.Whole]) ss

theorem nullableString_whole (n : Option String) : (nullableString n).Whole := by
  cases n <;> simp [nullableString, Value.Whole]

mutual

theorem Expr.toValue_whole : (e : Expr) → e.toValue.Whole
  | .string _ | .number _ | .boolean _ | .null | .template _ | .identifier _ | .raw _ => by
      simp [Expr.toValue, taggedObject, Value.Whole, WholeEntries]
  | .array es => by
      simp [Expr.toValue, taggedObject, Value.Whole, WholeEntries, Expr.toValues_whole es]
  | .object qs => by
      simp [Expr.toValue, taggedObject, Value.Whole, WholeEntries, Property.toValues_whole qs]
  | .call f es => by
      simp [Expr.toValue, taggedObject, Value.Whole, WholeEntries, f.toValue_whole,
        Expr.toValues_whole es]
  | .access e _ => by
      simp [Expr.toValue, taggedObject, Value.Whole, WholeEntries, e.toValue_whole]
  | .function n ps _ => by
      simp [Expr.toValue, taggedObject, Value.Whole, WholeEntries, nullableString_whole n,
        stringArray_whole ps]
  | .arrow ps _ => by
      simp [Expr.toValue, taggedObject, Value.Whole, WholeEntries, stringArray_whole ps]

theorem Expr.toValues_whole : (es : List Expr) → WholeItems (Expr.toValues es)
  | [] => by simp [Expr.toValues, WholeItems]
  | e :: es => by simp [Expr.toValues, WholeItems, e.toValue_whole, Expr.toValues_whole es]

theorem Property.toValue_whole : (q : Property) → q.toValue.Whole
  | .mk k e => by
      simp [Property.toValue, Value.Whole, WholeEntries, k.toValue_whole, e.toValue_whole]

theorem Property.toValues_whole : (qs : List Property) → WholeItems (Property.toValues qs)
  | [] => by simp [Property.toValues, WholeItems]
  | q :: qs => by
      simp [Property.toValues, WholeItems, q.toValue_whole, Property.toValues_whole qs]

theorem Key.toValue_whole : (x : Key) → x.toValue.Whole
  | .identifier _ | .string _ => by
      simp [Key.toValue, taggedObject, Value.Whole, WholeEntries]
  | .computed e => by
      simp [Key.toValue, taggedObject, Value.Whole, WholeEntries, e.toValue_whole]

end

theorem Spec.toValue_whole : (s : Spec) → s.toValue.Whole
  | ⟨_, none⟩ => by simp [Spec.toValue, Value.Whole, WholeEntries]
  | ⟨_, some es⟩ => by simp [Spec.toValue, Value.Whole, WholeEntries, Expr.toValues_whole es]

/-! ## Decoders -/

theorem Expr.toValues_eq_map : (es : List Expr) → Expr.toValues es = es.map Expr.toValue
  | [] => rfl
  | e :: es => by rw [Expr.toValues, Expr.toValues_eq_map es, List.map_cons]

theorem Expr.decoder_decodes : Decodes Expr.decoder Expr.toValue :=
  fun e _ hp => (e.toValue_represents .root).reads hp

theorem Key.decoder_decodes : Decodes Key.decoder Key.toValue :=
  fun x _ hp => (x.toValue_represents .root).reads hp

theorem Expr.list_decodes :
    Decodes (Decoder.list Expr.decoder) fun es => .array (Expr.toValues es) := by
  simp only [Expr.toValues_eq_map]
  exact Expr.decoder_decodes.list

theorem Property.decoder_decodes : Decodes Property.decoder Property.toValue := by
  rintro ⟨k, e⟩ p hp
  rw [Property.toValue] at hp
  have hrecord := RecordText.of_object (by simp) hp
  refine Decoder.bind_reads (a := (k, e, ())) (Decoder.record_reads (by decide) ?_ _ hrecord)
    fun _ _ => rfl
  exact ⟨Field.fits_tree (Key.decoder_decodes k), Field.fits_tree (Expr.decoder_decodes e), rfl⟩

theorem Spec.decoder_decodes : Decodes Spec.decoder Spec.toValue := by
  rintro ⟨name, arguments⟩ p hp
  have hrecord := RecordText.of_object (by simp) hp
  have hlist := Expr.list_decodes.nullable fun _ => nofun
  refine Decoder.bind_reads (a := (name, arguments, ()))
    (Decoder.record_reads (by decide) ?_ _ hrecord) fun _ _ => rfl
  refine ⟨Field.fits_tree (Decodes.text name), Field.fits_tree ?_, rfl⟩
  cases arguments with
  | none => exact hlist none
  | some es => exact hlist (some es)

theorem Modifier.decoder_decodes : Decodes Modifier.decoder Modifier.toValue := by
  rintro ⟨property, args⟩ p hp
  have hrecord := RecordText.of_object (by simp) hp
  have hargs := Expr.list_decodes.orDefault (fun _ => nofun) []
  refine Decoder.bind_reads (a := (property, args, ()))
    (Decoder.record_reads (by decide) ?_ _ hrecord) fun _ _ => rfl
  exact ⟨Field.fits_tree (Decodes.text property), Field.fits_tree (hargs args), rfl⟩

theorem ClassProperty.decoder_decodes : Decodes ClassProperty.decoder ClassProperty.toValue := by
  rintro ⟨name, value⟩ p hp
  have hrecord := RecordText.of_object (by simp) hp
  refine Decoder.bind_reads (a := (name, value, ()))
    (Decoder.record_reads (by decide) ?_ _ hrecord) fun _ _ => rfl
  exact ⟨Field.fits_tree (Decodes.text name), Field.fits_tree (Expr.decoder_decodes value), rfl⟩

/-! ## Whatever travels -/

/-- What is written to a text and read back: one of the parts of a program, or a list of them. -/
inductive Payload where
  | expr
  | exprs
  | key
  | property
  | modifier
  | classProperty
  | spec
  | specs

namespace Payload

abbrev Carrier : Payload → Type
  | .expr => Expr
  | .exprs => List Expr
  | .key => Key
  | .property => Property
  | .modifier => Modifier
  | .classProperty => ClassProperty
  | .spec => Spec
  | .specs => List Spec

def encode : (k : Payload) → k.Carrier → Value
  | .expr => Expr.toValue
  | .exprs => fun es => .array (Expr.toValues es)
  | .key => Key.toValue
  | .property => Property.toValue
  | .modifier => Modifier.toValue
  | .classProperty => ClassProperty.toValue
  | .spec => Spec.toValue
  | .specs => fun ss => .array (ss.map Spec.toValue)

def decoder : (k : Payload) → Decoder k.Carrier
  | .expr => Expr.decoder
  | .exprs => Decoder.list Expr.decoder
  | .key => Key.decoder
  | .property => Property.decoder
  | .modifier => Modifier.decoder
  | .classProperty => ClassProperty.decoder
  | .spec => Spec.decoder
  | .specs => Decoder.list Spec.decoder

theorem decoder_decodes : (k : Payload) → Decodes k.decoder k.encode
  | .expr => Expr.decoder_decodes
  | .exprs => Expr.list_decodes
  | .key => Key.decoder_decodes
  | .property => Property.decoder_decodes
  | .modifier => Modifier.decoder_decodes
  | .classProperty => ClassProperty.decoder_decodes
  | .spec => Spec.decoder_decodes
  | .specs => Spec.decoder_decodes.list

theorem encode_whole : (k : Payload) → (x : k.Carrier) → (k.encode x).Whole
  | .expr, e => e.toValue_whole
  | .exprs, es => by
      rw [encode, Value.Whole]
      exact Expr.toValues_whole es
  | .key, x => x.toValue_whole
  | .property, q => q.toValue_whole
  | .modifier, m => by
      simp [encode, Modifier.toValue, Value.Whole, WholeEntries, Expr.toValues_whole]
  | .classProperty, c => by
      simp [encode, ClassProperty.toValue, Value.Whole, WholeEntries, Expr.toValue_whole]
  | .spec, s => Spec.toValue_whole s
  | .specs, ss => by
      rw [encode, Value.Whole]
      exact wholeItems_map Spec.toValue_whole ss

/-- The compact text of a value is decoded as that value, unless it nests more than 127 arrays and
objects; then it is refused for its nesting and for nothing else. -/
theorem run_encode (k : Payload) (x : k.Carrier) :
    k.decoder.run (k.encode x).text
        = (if (k.encode x).nesting ≤ 127 then .ok x else .error .nestedTooDeep)
      ∧ Error.nestedTooDeep.category = .syntactic
      ∧ Error.nestedTooDeep.message = "recursion limit exceeded" := by
  have hreads := k.decoder_decodes x _ (.chars (k.encode_whole x))
  exact ⟨Decoder.run_of_reads hreads .nil .nil (k.encode x).text_toList, rfl, rfl⟩

end Payload

end Adorn
