import Adorn.Proofs.Expr.Represents
import Adorn.Proofs.Json.Compact
import Adorn.Proofs.Wire.Streams

/-!
# Texts of expressions

The decoder of expressions on a text that spells a tree. It takes the
text exactly where the tree represents an expression at the root of a
document; the outermost tag is read off the text and everything inside
goes through the decoder of trees.
-/

namespace Adorn

open Json Wire

theorem Expr.decoder_eq_ok {v : Value} {p b rest s : List Char} (hv : v.Spelled p)
    (hb : Blanks b) (hrest : Delimited rest) {levels : Nat} (hfits : v.nesting ≤ levels)
    {e : Expr} :
    Expr.decoder levels (b ++ (p ++ rest)) = .ok (e, s) ↔ Represents .root v e ∧ s = rest := by
  refine Decoder.bind_eq_ok.trans ⟨?_, ?_⟩
  · intro h
    obtain ⟨⟨k, body⟩, s', hdecode, hofBody⟩ := h
    obtain ⟨hnode, rfl⟩ := (Tagged.decode_eq_ok Expr.kinds_lawful hv hb hrest hfits).mp hdecode
    obtain ⟨hparts, rfl⟩ := Decoder.lift_eq_ok.mp hofBody
    exact ⟨.node hnode (((Expr.ofValue_decodes _).parts (Nat.lt_succ_self _)).mp hparts), rfl⟩
  · intro h
    obtain ⟨⟨hnode, hparts⟩, rfl⟩ := h
    exact ⟨⟨_, _⟩, s, (Tagged.decode_eq_ok Expr.kinds_lawful hv hb hrest hfits).mpr ⟨hnode, rfl⟩,
      Decoder.lift_eq_ok.mpr
        ⟨((Expr.ofValue_decodes _).parts (Nat.lt_succ_self _)).mpr hparts, rfl⟩⟩

/-- An expression is read off every piece whose tree represents it. -/
theorem Represents.reads {v : Value} {e : Expr} (h : Represents .root v e) {p : Piece}
    (hp : Spells v p) : Reads Expr.decoder p e := by
  obtain ⟨hnode, hparts⟩ := h
  have hofBody := ((Expr.ofValue_decodes _).parts (Nat.lt_succ_self _)).mpr hparts
  exact Decoder.bind_reads (hnode.reads Expr.kinds_lawful hp) fun _ _ =>
    Decoder.lift_eq_ok.mpr ⟨hofBody, rfl⟩

theorem RepresentsKey.reads {v : Value} {x : Key} (h : RepresentsKey .root v x) {p : Piece}
    (hp : Spells v p) : Reads Key.decoder p x := by
  obtain ⟨hnode, hparts⟩ := h
  have hofBody := ((Expr.ofValue_decodes _).keyParts (Nat.lt_succ_self _)).mpr hparts
  exact Decoder.bind_reads (hnode.reads Key.kinds_lawful hp) fun _ _ =>
    Decoder.lift_eq_ok.mpr ⟨hofBody, rfl⟩

/-- A document is taken as an expression exactly where its tree represents one. -/
theorem Expr.run_eq_ok {v : Value} {text : String} {b p b' : List Char} (hv : v.Spelled p)
    (hb : Blanks b) (hb' : Blanks b') (htext : text.toList = b ++ (p ++ b'))
    (hfits : v.nesting ≤ maxNesting) {e : Expr} :
    Expr.decoder.run text = .ok e ↔ Represents .root v e := by
  have hrest : Delimited b' := by
    rw [← List.append_nil b']
    exact .blanks hb' .nil
  rw [Decoder.run_eq_ok, htext]
  constructor
  · intro h'
    obtain ⟨s, hrun, -⟩ := h'
    exact ((Expr.decoder_eq_ok hv hb hrest hfits).mp hrun).1
  · intro h
    exact ⟨b', (Expr.decoder_eq_ok hv hb hrest hfits).mpr ⟨h, rfl⟩, hb'⟩

theorem Json.Value.text_toList (v : Value) : v.text.toList = [] ++ (v.chars ++ []) := by
  rw [Value.text, String.toList_ofList, List.append_nil, List.nil_append]

/-- The decoder of expressions accepts exactly its format: the compact text of a tree is taken for
`e` if and only if the tree represents `e` at the root of a document. -/
theorem Expr.decodes_iff_represents (v : Value) (hv : v.Whole) (hnesting : v.nesting ≤ 127)
    (e : Expr) : Expr.decoder.run v.text = .ok e ↔ Represents .root v e :=
  Expr.run_eq_ok hv.spelled .nil .nil v.text_toList hnesting

/-- A call with its tag last, a key of no meaning in between, a callee and an argument whose tags are
numbers, and the argument as a list. -/
def tagLastCall : Value :=
  .object [("arguments", .array [.array [.integer 3]]), ("note", .integer (-5)),
    ("callee", .object [("name", .string "f"), ("kind", .integer 5)]),
    ("kind", .string "callExpr")]

theorem tagLastCall_represents : Represents .root tagLastCall (.call (.identifier "f") [.null]) := by
  have hcallee : Represents .nested (.object [("name", .string "f"), ("kind", .integer 5)])
      (.identifier "f") :=
    .node (.object (k := .identifier) rfl (.index (i := 5) rfl))
      (.identifier (.keyed (by simp [valuesAt, tagKey])))
  have hargument : Represents .nested (.array [.integer 3]) .null :=
    .node (.array (k := .nullLiteral) (.index (i := 3) rfl)) (.null (.listed rfl))
  exact .node (.object rfl (.name .root Expr.Kind.callExpr))
    (.call (.keyed (by simp [valuesAt, tagKey])) hcallee (.cons hargument .nil))

theorem Expr.decodes_tagLastCall :
    tagLastCall.Whole ∧ tagLastCall.nesting ≤ 127 ∧
      Expr.decoder.run tagLastCall.text = .ok (.call (.identifier "f") [.null]) := by
  have hwhole : tagLastCall.Whole := by
    simp [tagLastCall, Value.Whole, WholeItems, WholeEntries, Number.IsWord]
  have hnesting : tagLastCall.nesting ≤ 127 := by decide
  exact ⟨hwhole, hnesting,
    (Expr.decodes_iff_represents tagLastCall hwhole hnesting _).mpr tagLastCall_represents⟩

end Adorn
