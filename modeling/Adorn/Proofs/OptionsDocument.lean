import Adorn.Member.Document
import Adorn.Proofs.RoundTrip
import Adorn.Proofs.Wire.Accepted
import Adorn.Synthesis.Dispatch

/-!
# Option documents

A document of options gives each table or leaves it out, in which case
the table keeps its default; no table affects another. A set of names is
written as a list of its members, in any order and as often as one
likes. Such a document is read as the options it describes
(`Options.run_of_describes`).

Unlike a member, options know no null: a default is left out or written
in full. A well-formed document with null in the place of a table, or
with one of the keys twice, is refused whatever else it holds
(`Options.run_of_spoiled`).
-/

namespace Adorn

open Json Wire

namespace Options

/-! ## The texts of options -/

/-- The piece lists the members of the set and nothing else. -/
def ListsNames (s : NameSet) (p : Piece) : Prop :=
  ∃ ns : List String, (∀ k, k ∈ ns ↔ s.contains k = true) ∧ Spells (stringArray ns) p

/-- The tables as a document gives them. -/
def slots (o : Options) : List Slot :=
  [⟨"bindingDecorators", ListsNames o.bindings, o.bindings = default.bindings⟩,
   ⟨"markerDecorators", ListsNames o.markers, o.markers = default.markers⟩,
   ⟨"classDecoratorProps", ListsNames o.classProps, o.classProps = default.classProps⟩,
   ⟨"classicDecorator", Spells (.string o.classic), o.classic = default.classic⟩]

/-- The text is a document of the options, with any blanks around it. -/
def Describes (o : Options) (text : String) : Prop :=
  ∃ b p b', Blanks b ∧ Blanks b' ∧ RecordText o.slots p ∧ text.toList = b ++ (p.text ++ b')

/-- The keys of the tables, in the order of their declaration. -/
def keys : List String :=
  fields.map Field.key

/-- A well-formed object or list that is no record of options: one of the tables is null, or the
object has the key of a table twice. -/
inductive Spoiled : List Char → Prop where
  | nullEntry {qs : List (List Char × List Char)} {inner l : List Char} {k : String}
      (hi : EntriesText true qs inner) (hqs : ∀ q ∈ qs, QuotedText q.1 ∧ WellFormed q.2)
      (hk : k ∈ keys) (hl : StringText k l) (hnull : (l, Piece.null.text) ∈ qs) :
      Spoiled ('\x7b' :: inner)
  | repeatedKey {qs : List (List Char × List Char)} {inner : List Char}
      {q q' : List Char × List Char} {k : String} (hi : EntriesText true qs inner)
      (hqs : ∀ q ∈ qs, QuotedText q.1 ∧ WellFormed q.2) (hk : k ∈ keys)
      (hq : StringText k q.1) (hq' : StringText k q'.1) (htwice : [q, q'].Sublist qs) :
      Spoiled ('\x7b' :: inner)
  | nullItem {ps : List (List Char)} {inner : List Char} {i : Nat} (hi : ItemsText true ps inner)
      (hps : ∀ p ∈ ps, WellFormed p) (hindex : i < keys.length)
      (hnull : ps[i]? = some Piece.null.text) : Spoiled ('[' :: inner)

/-- The text is a spoiled record of options, with any blanks around it. -/
def SpoiledDocument (text : String) : Prop :=
  ∃ b p b', Blanks b ∧ Blanks b' ∧ Spoiled p ∧ text.toList = b ++ (p ++ b')

/-! ## Reading what describes options -/

theorem ofList_eq_of_lists {s : NameSet} {ns : List String}
    (h : ∀ k, k ∈ ns ↔ s.contains k = true) : NameSet.ofList ns = s := by
  refine NameSet.ext_contains fun k => ?_
  rw [NameSet.contains_ofList, Bool.eq_iff_iff, List.contains_iff_mem]
  exact h k

theorem names_reads {s : NameSet} {p : Piece} (h : ListsNames s p) : Reads namesDecoder p s := by
  obtain ⟨ns, hns, hp⟩ := h
  rw [← ofList_eq_of_lists hns]
  exact Decoder.bind_reads (Decodes.text.list ns p hp) fun _ _ => rfl

/-- A table that is left out has its default. -/
theorem table_fits {α : Type} {key : String} {d : Decoder α} {x default : α}
    {Holds : Piece → Prop} (hread : ∀ p, Holds p → Reads d p x) :
    (Field.optional key d default).Fits ⟨key, Holds, x = default⟩ x where
  key := rfl
  read := hread
  absent h := by rw [h]
  cut h := by rw [h]

/-- Options are read off every piece that describes them. -/
theorem reads {o : Options} {p : Piece} (hp : RecordText o.slots p) : Reads decoder p o := by
  obtain ⟨bindings, markers, classProps, classic⟩ := o
  refine Decoder.bind_reads (a := (bindings, markers, classProps, classic, ()))
    (Decoder.record_reads (by decide) ?_ _ hp) fun _ _ => rfl
  exact ⟨table_fits fun _ => names_reads, table_fits fun _ => names_reads,
    table_fits fun _ => names_reads, table_fits (Decodes.text classic), rfl⟩

theorem nestingItems_strings (ns : List String) : nestingItems (ns.map Value.string) = 0 := by
  induction ns with
  | nil => rfl
  | cons n ns ih => rw [List.map_cons, nestingItems, ih, Nat.max_zero, Value.nesting]

/-- No table nests deeper than a list of strings. -/
theorem slots_nesting (o : Options) : ∀ slot ∈ o.slots, ∀ p, slot.Holds p → p.nesting ≤ 1 := by
  have hnames : ∀ (s : NameSet) (p : Piece), ListsNames s p → p.nesting ≤ 1 := by
    intro s p h
    obtain ⟨ns, -, hp⟩ := h
    have hone : p.nesting = 1 := by
      rw [hp.nesting, stringArray, Value.nesting, nestingItems_strings]
    exact Nat.le_of_eq hone
  have hclassic : ∀ p, Spells (.string o.classic) p → p.nesting ≤ 1 := by
    intro p hp
    rw [hp.nesting, Value.nesting]
    exact Nat.zero_le 1
  simp only [slots, List.forall_mem_cons]
  exact ⟨hnames _, hnames _, hnames _, hclassic, fun _ h => absurd h List.not_mem_nil⟩

theorem run_of_describes {o : Options} {text : String} (h : o.Describes text) :
    decoder.run text = .ok o := by
  obtain ⟨b, p, b', hb, hb', hp, htext⟩ := h
  have hnesting : p.nesting ≤ maxNesting :=
    Nat.le_trans (hp.nesting_le o.slots_nesting) (by decide)
  exact (Decoder.run_of_reads (reads hp) hb hb' htext).trans (if_pos hnesting)

/-! ## Refusing what is spoiled -/

theorem record_of_decoder {levels : Nat} {s r : List Char} {o : Options}
    (h : decoder levels s = .ok (o, r)) :
    ∃ x u, Decoder.record "SynthesisOptions" fields levels s = .ok (x, u) := by
  obtain ⟨x, u, hx, -⟩ := Decoder.bind_eq_ok.mp h
  exact ⟨x, u, hx⟩

theorem fields_exact : ∀ f ∈ fields, f.read.Exact := by
  have hnames : namesDecoder.Exact := by
    refine (Decoder.list_exact Decoder.text_exact).bind fun a levels s y r h => ?_
    cases h
    rfl
  simp only [fields, List.forall_mem_cons]
  exact ⟨hnames, hnames, hnames, Decoder.text_exact, fun _ h => absurd h List.not_mem_nil⟩

theorem fields_refuseNull : ∀ f ∈ fields, f.read.RefusesNull := by
  have hnames : namesDecoder.RefusesNull := (Decoder.list_refusesNull _).bind _
  simp only [fields, List.forall_mem_cons]
  exact ⟨hnames, hnames, hnames, Decoder.text_refusesNull, fun _ h => absurd h List.not_mem_nil⟩

/-- Every key is that of a field. -/
theorem exists_field {k : String} (hk : k ∈ keys) : ∃ f ∈ fields, f.key = k :=
  List.mem_map.mp hk

theorem decoder_of_spoiled {p : List Char} (hp : Spoiled p) {b rest r : List Char} (hb : Blanks b)
    {levels : Nat} {o : Options} : decoder levels (b ++ (p ++ rest)) ≠ .ok (o, r) := by
  intro h
  obtain ⟨x, u, hrecord⟩ := record_of_decoder h
  have hkeys : (fields.map Field.key).Nodup := by decide
  cases hp with
  | @nullEntry qs inner l k hi hqs hk hl hnull =>
      obtain ⟨f, hf, rfl⟩ := exists_field hk
      have hkey : ∀ q ∈ [(l, Piece.null.text)], StringText f.key q.1 := by simpa using hl
      obtain ⟨-, htakes⟩ := Decoder.record_object hkeys fields_exact hb hi hqs hrecord hf
        (List.singleton_sublist.mpr hnull) hkey
      obtain ⟨y, hy⟩ := htakes _ (List.mem_singleton.mpr rfl)
      exact hy.ne_null (fields_refuseNull f hf) rfl
  | @repeatedKey qs inner q q' k hi hqs hk hq hq' htwice =>
      obtain ⟨f, hf, rfl⟩ := exists_field hk
      have hkey : ∀ q₁ ∈ [q, q'], StringText f.key q₁.1 := by simp [hq, hq']
      obtain ⟨honce, -⟩ := Decoder.record_object hkeys fields_exact hb hi hqs hrecord hf htwice hkey
      exact absurd honce (by simp)
  | @nullItem ps inner i hi hps hindex hnull =>
      have hlt : i < fields.length := hindex
      have hf : fields[i]? = some fields[i] := List.getElem?_eq_getElem hlt
      obtain ⟨y, hy⟩ := Decoder.record_list fields_exact hb hi hps hrecord hf hnull
      exact hy.ne_null (fields_refuseNull _ (List.getElem_mem hlt)) rfl

theorem run_of_spoiled {text : String} (h : SpoiledDocument text) :
    ∃ cause, decoder.run text = .error cause := by
  obtain ⟨b, p, b', hb, hb', hp, htext⟩ := h
  cases hrun : decoder.run text with
  | error cause => exact ⟨cause, rfl⟩
  | ok o =>
      obtain ⟨r, hread, -⟩ := Decoder.run_eq_ok.mp hrun
      rw [htext] at hread
      exact absurd hread (decoder_of_spoiled hp hb)

/-! ## Documents -/

/-- Every document that describes options is read as these very options, so names are sorted and
classes decorated as under them. A document with null in the place of a table or with one of the
keys twice is refused as malformed. -/
theorem ofText_tables (text : String) :
    (∀ o : Options, o.Describes text →
      ofText text = .ok o
        ∧ (∀ raw, (ofText text).map (Name.classify? · raw) = .ok (Name.classify? o raw))
        ∧ ∀ props, (ofText text).map (classDecorators · props) = .ok (o.classDecorators props))
      ∧ (SpoiledDocument text → ∃ cause, ofText text = .error (.malformed cause)) := by
  refine ⟨fun o ho => ?_, fun hspoiled => ?_⟩
  · have hread : ofText text = .ok o := by
      rw [ofText, Decoder.document, run_of_describes ho]
      rfl
    rw [hread]
    exact ⟨rfl, fun _ => rfl, fun _ => rfl⟩
  · obtain ⟨cause, hcause⟩ := run_of_spoiled hspoiled
    refine ⟨cause, ?_⟩
    rw [ofText, Decoder.document, hcause]
    rfl

/-- Two bindings and another decorator for every class; the other tables have their defaults. -/
def partialOptions : Options :=
  { default with
    bindings := .ofList ["a", "b"]
    classic := "legacy" }

/-- A key of no meaning first, then the two tables, of which the names come out of order and one of
them twice. -/
def partialText : String :=
  "\x7b\"note\":[null],\"classicDecorator\":\"legacy\",\"bindingDecorators\":[\"b\",\"a\",\"b\"]\x7d "

def partialEntries : List Labelled :=
  [⟨⟨['[', 'n', 'u', 'l', 'l', ']'], 0⟩, "note", stringChars "note"⟩,
   ⟨⟨stringChars "legacy", 0⟩, "classicDecorator", stringChars "classicDecorator"⟩,
   ⟨⟨(stringArray ["b", "a", "b"]).chars, 1⟩, "bindingDecorators",
     stringChars "bindingDecorators"⟩]

theorem partialText_describes : partialOptions.Describes partialText := by
  have hclassic : Spells (.string "legacy") ⟨stringChars "legacy", 0⟩ :=
    ⟨by simpa only [Value.Spelled] using ScalarText.string (stringText_stringChars "legacy"), rfl⟩
  have hnames : ListsNames partialOptions.bindings ⟨(stringArray ["b", "a", "b"]).chars, 1⟩ := by
    refine ⟨["b", "a", "b"], fun k => ?_, .chars (stringArray_whole _)⟩
    simp only [partialOptions, NameSet.contains_ofList, List.contains_iff_mem, List.mem_cons]
    tauto
  have hnote : WellFormed ['[', 'n', 'u', 'l', 'l', ']'] :=
    .array (.first (p := ['n', 'u', 'l', 'l']) .nil (.close .nil)) (by simpa using WellFormed.null)
  refine ⟨[], _, [' '], .nil, by simp [Blanks, isSpace],
    @RecordText.object _ partialEntries _
      (.first .nil .nil .nil (.next .nil .nil .nil .nil (.next .nil .nil .nil .nil (.close .nil))))
      ?_ ?_ ?_, by decide⟩
  · simp [partialEntries, stringText_stringChars]
  · simp [partialEntries, slots, hnote]
  · simp only [slots, List.forall_mem_cons]
    exact ⟨Or.inl ⟨_, rfl, hnames⟩, Or.inr ⟨rfl, rfl⟩, Or.inr ⟨rfl, rfl⟩,
      Or.inl ⟨_, rfl, hclassic⟩, fun _ h => absurd h List.not_mem_nil⟩

/-- The second table of this list is null. -/
def nullText : String := "[[],null]"

theorem nullText_spoiled : SpoiledDocument nullText := by
  have hempty : WellFormed ['[', ']'] := .array (.close .nil) (fun _ h => nomatch h)
  refine ⟨[], _, [], .nil, .nil, @Spoiled.nullItem [['[', ']'], Piece.null.text] _ 1
    (.first .nil (.next .nil .nil (.close .nil))) ?_ (by decide) rfl, by decide⟩
  simp [hempty, Piece.null, WellFormed.null]

/-- One key twice, the second time with an escape. -/
def repeatedText : String :=
  "\x7b\"classicDecorator\":\"a\",\"\\u0063lassicDecorator\":\"a\"\x7d"

/-- The second spelling of the key. -/
def escapedLabel : List Char :=
  '"' :: (['\\', 'u', '0', '0', '6', '3'] ++ "lassicDecorator".toList.flatMap escapedChar ++ ['"'])

theorem escapedLabel_spells : StringText "classicDecorator" escapedLabel := by
  have hletter : CharText (Char.ofNat 0x63) ['\\', 'u', '0', '0', '6', '3'] :=
    .numeric (by decide) (by decide) (by decide)
  exact .mk (.cons hletter (charsText_flatMap charText_escapedChar "lassicDecorator".toList))

theorem repeatedText_spoiled : SpoiledDocument repeatedText := by
  have hfirst : StringText "classicDecorator" (stringChars "classicDecorator") :=
    stringText_stringChars _
  have hvalue : WellFormed (stringChars "a") := .string (stringText_stringChars "a").quoted
  refine ⟨[], _, [], .nil, .nil, @Spoiled.repeatedKey
    [(stringChars "classicDecorator", stringChars "a"), (escapedLabel, stringChars "a")] _ _ _ _
    (.first .nil .nil .nil (.next .nil .nil .nil .nil (.close .nil))) ?_ (by decide) hfirst
    escapedLabel_spells (List.Sublist.refl _), by decide⟩
  simp [hfirst.quoted, escapedLabel_spells.quoted, hvalue]

theorem ofText_partialText :
    partialOptions.Describes partialText ∧ ofText partialText = .ok partialOptions
      ∧ SpoiledDocument nullText ∧ (∃ cause, ofText nullText = .error (.malformed cause))
      ∧ SpoiledDocument repeatedText
      ∧ (∃ cause, ofText repeatedText = .error (.malformed cause)) :=
  ⟨partialText_describes, ((ofText_tables partialText).1 partialOptions partialText_describes).1,
    nullText_spoiled, (ofText_tables nullText).2 nullText_spoiled,
    repeatedText_spoiled, (ofText_tables repeatedText).2 repeatedText_spoiled⟩

end Options

end Adorn
