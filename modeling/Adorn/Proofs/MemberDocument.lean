import Adorn.Member.Document
import Adorn.Proofs.Classification
import Adorn.Proofs.RoundTrip
import Mathlib.Order.Bounds.Defs

/-!
# Member documents

Which texts describe a member, and when a text is refused. A document
may give its fields in any order or as a list, may write a default as
null or not at all, and may hold other keys; `Member.Draft.reads` says
that the same draft is read off all of these, and a draft without blank
modifiers becomes a member.

The options come last: what is refused is refused whatever they are, and
they decide nothing about a member but the categories of its names
(`Member.Draft.resolve_uncategorized`).
-/

namespace Adorn

open Json Wire

/-! ## The texts of a member -/

/-- The fields of a modifier as a document gives them. -/
def Modifier.slots (m : Modifier) : List Slot :=
  [.ofTree ("property", .string m.property),
   .defaulted "args" (m.args = []) (Spells (.array (Expr.toValues m.args)))]

namespace Member.Draft

/-- The fields of a member as a document gives them: only the names are always there. -/
def slots (d : Draft) : List Slot :=
  [{ key := "decoratorNames"
     Holds := fun p => Spells (.array (d.names.map nullableString)) p ∨ d.names = [] ∧ p = .null
     omissible := False },
   .defaulted "callExprArgs" (d.args = []) (Spells (.array (Expr.toValues d.args))),
   .defaulted "hasNonLiteralArg" (d.nonLiteral = false) (Spells (.boolean d.nonLiteral)),
   .defaulted "isVolatileReadOnly" (d.isVolatile = false) (Spells (.boolean d.isVolatile)),
   .defaulted "modifiers" (d.modifiers = [])
     (ListText (fun m => RecordText m.slots) d.modifiers),
   .defaulted "propList" (d.props = none)
     fun p => ∃ ps, d.props = some ps ∧ Spells (stringArray ps) p]

end Member.Draft

/-! ## Reading them -/

theorem Modifier.reads {m : Modifier} {p : Piece} (hp : RecordText m.slots p) :
    Reads Modifier.decoder p m := by
  obtain ⟨property, args⟩ := m
  refine Decoder.bind_reads (a := (property, args, ()))
    (Decoder.record_reads (by decide) ?_ _ hp) fun _ _ => rfl
  exact ⟨Field.fits_tree (Decodes.text property),
    Field.fits_defaulted (Expr.list_decodes args) (fun p hp => head_ne_of_spelled hp.text nofun) id,
    rfl⟩

namespace Member.Draft

theorem names_decodes : Decodes (Decoder.list (Decoder.nullable Decoder.text))
    fun names => .array (names.map nullableString) := by
  have htoken : Decodes (Decoder.nullable Decoder.text) nullableString := by
    intro n
    cases n with
    | none => exact Decodes.text.nullable (fun _ => nofun) none
    | some s => exact Decodes.text.nullable (fun _ => nofun) (some s)
  exact htoken.list

theorem names_fits (names : List (Option String)) :
    (Field.required "decoratorNames"
      (Decoder.orDefault (Decoder.list (Decoder.nullable Decoder.text)) [])).Fits
      ⟨"decoratorNames",
        fun p => Spells (.array (names.map nullableString)) p ∨ names = [] ∧ p = .null, False⟩
      names where
  key := rfl
  read p hp := by
    rcases hp with hp | ⟨rfl, rfl⟩
    · exact Decoder.orDefault_reads (names_decodes names p hp)
        (head_ne_of_spelled hp.text nofun) []
    · exact Decoder.orDefault_null _ []
  absent := False.elim
  cut := False.elim

theorem props_fits (props : Option (List String)) :
    (Field.optional "propList" (Decoder.nullable (Decoder.list Decoder.text)) none).Fits
      (.defaulted "propList" (props = none)
        fun p => ∃ ps, props = some ps ∧ Spells (stringArray ps) p) props where
  key := rfl
  read p hp := by
    rcases hp with ⟨ps, rfl, hp⟩ | ⟨rfl, rfl⟩
    · exact Decoder.nullable_reads (Decodes.text.list ps p hp) (head_ne_of_spelled hp.text nofun)
    · exact Decoder.nullable_null _
  absent h := by rw [h]
  cut h := by rw [h]

/-- A draft is read off every piece that describes it. -/
theorem reads {d : Draft} {p : Piece} (hp : RecordText d.slots p) : Reads decoder p d := by
  obtain ⟨names, args, nonLiteral, isVolatile, modifiers, props⟩ := d
  refine Decoder.bind_reads (a := (names, args, nonLiteral, isVolatile, modifiers, props, ()))
    (Decoder.record_reads (by decide) ?_ _ hp) fun _ _ => rfl
  have hflag : ∀ (b : Bool) (p : Piece), Spells (.boolean b) p → p.text.head? ≠ some 'n' :=
    fun b p hp => head_ne_of_spelled hp.text nofun
  refine ⟨names_fits names, Field.fits_defaulted (Expr.list_decodes args)
      (fun p hp => head_ne_of_spelled hp.text nofun) id,
    Field.fits_defaulted (Decodes.flag nonLiteral) (hflag nonLiteral) id,
    Field.fits_defaulted (Decodes.flag isVolatile) (hflag isVolatile) id,
    Field.fits_defaulted (fun p hp => hp.reads fun _ _ => Modifier.reads) ?_ id,
    props_fits props, rfl⟩
  rintro p ⟨-, -⟩
  simp

end Member.Draft

/-! ## Blank modifiers -/

namespace Member

/-- The modifier that is reported is the first blank one. -/
theorem Draft.emptyModifier?_eq_some {d : Draft} {i : Nat} :
    d.emptyModifier? = some i ↔
      IsLeast {j | ∃ m, d.modifiers[j]? = some m ∧ Text.AllBlank m.property} i := by
  rw [Draft.emptyModifier?, List.findIdx?_eq_some_iff_getElem]
  constructor
  · intro h
    obtain ⟨hi, hblank, hbefore⟩ := h
    refine ⟨⟨d.modifiers[i], List.getElem?_eq_getElem hi, ?_⟩, ?_⟩
    · exact Text.isBlankText_iff.mp hblank
    · rintro j ⟨m, hm, hmblank⟩
      by_contra hlt
      obtain ⟨hj, rfl⟩ := List.getElem?_eq_some_iff.mp hm
      exact hbefore j (Nat.lt_of_not_le hlt) (Text.isBlankText_iff.mpr hmblank)
  · intro h
    obtain ⟨⟨m, hm, hblank⟩, hleast⟩ := h
    obtain ⟨hi, rfl⟩ := List.getElem?_eq_some_iff.mp hm
    refine ⟨hi, Text.isBlankText_iff.mpr hblank, fun j hji hj => ?_⟩
    refine absurd (hleast ⟨_, List.getElem?_eq_getElem (Nat.lt_trans hji hi), ?_⟩)
      (Nat.not_le_of_lt hji)
    exact Text.isBlankText_iff.mp hj

theorem Draft.emptyModifier?_eq_none {d : Draft}
    (h : ∀ m ∈ d.modifiers, ¬Text.AllBlank m.property) : d.emptyModifier? = none := by
  rw [Draft.emptyModifier?, List.findIdx?_eq_none_iff]
  intro m hm
  rw [← Bool.not_eq_true]
  exact fun hblank => h m hm (Text.isBlankText_iff.mp hblank)

/-! ## Documents -/

theorem resolve_value (o : Options) : (raws : List String) →
    (resolve o raws).value = raws.filterMap (Name.classify? o)
  | [] => rfl
  | raw :: raws => by
      have hrest := resolve_value o raws
      unfold resolve
      cases hname : Name.classify? o raw with
      | none =>
          rw [List.filterMap_cons_none hname]
          exact hrest
      | some n =>
          rw [List.filterMap_cons_some hname, ← hrest]
          rfl

theorem Draft.resolve_value (o : Options) (d : Draft) :
    (d.resolve o).value =
      { names := (d.names.filterMap id).filterMap (Name.classify? o)
        args := d.args
        nonLiteral := d.nonLiteral
        isVolatile := d.isVolatile
        modifiers := d.modifiers
        props := d.props } := by
  rw [← Member.resolve_value]
  rfl

section

variable {text : String} {d : Draft}

/-! A document is decoded first, then its modifiers are looked at, and nothing else can fail. Names
are resolved last, so only the document of a member has anything recorded. -/

theorem read_malformed {cause : Json.Error} (h : Draft.decoder.run text = .error cause)
    (o : Options) : read o text = pure (.error (.malformed cause)) := by
  rw [read, Decoder.document, h]
  rfl

theorem read_decoded (h : Draft.decoder.run text = .ok d) (o : Options) :
    read o text = d.toMember o := by
  rw [read, Decoder.document, h]
  rfl

theorem read_blank {i : Nat} (h : Draft.decoder.run text = .ok d)
    (hi : d.emptyModifier? = some i) (o : Options) :
    read o text = pure (.error (.emptyModifier i)) := by
  rw [read_decoded h, Draft.toMember, hi]
  rfl

theorem read_resolved (h : Draft.decoder.run text = .ok d) (hnone : d.emptyModifier? = none)
    (o : Options) : read o text = .ok <$> d.resolve o := by
  rw [read_decoded h, Draft.toMember, hnone]
  rfl

theorem ofText_malformed {cause : Json.Error} (h : Draft.decoder.run text = .error cause)
    (o : Options) : ofText o text = .error (.malformed cause) := by
  rw [ofText, read_malformed h]
  rfl

theorem ofText_blank {i : Nat} (h : Draft.decoder.run text = .ok d)
    (hi : d.emptyModifier? = some i) (o : Options) :
    ofText o text = .error (.emptyModifier i) := by
  rw [ofText, read_blank h hi]
  rfl

theorem ofText_resolved (h : Draft.decoder.run text = .ok d) (hnone : d.emptyModifier? = none)
    (o : Options) : ofText o text = .ok (d.resolve o) := by
  rw [ofText, read_resolved h hnone]
  rfl

end

/-- A document that describes a draft is read as that draft. -/
theorem Draft.run_eq_ok {d : Draft} {text : String} (h : DocumentText d.slots text) :
    Draft.decoder.run text = .ok d := by
  obtain ⟨b, p, b', hb, hb', hp, hnesting, htext⟩ := h
  exact (Decoder.run_of_reads (Draft.reads hp) hb hb' htext).trans (if_pos hnesting)

/-- Every document of a member gives the member put together by hand: its names are those that are
not null, resolved in their order with the blank ones dropped, and the rest is as it stands. -/
theorem ofText_of_describes (o : Options) (d : Draft) (text : String)
    (hmodifiers : ∀ m ∈ d.modifiers, ¬Text.AllBlank m.property)
    (htext : DocumentText d.slots text) :
    (ofText o text).map Traced.value = .ok
      { names := (d.names.filterMap id).filterMap (Name.classify? o)
        args := d.args
        nonLiteral := d.nonLiteral
        isVolatile := d.isVolatile
        modifiers := d.modifiers
        props := d.props } := by
  have hresolved := ofText_resolved (Draft.run_eq_ok htext)
    (Draft.emptyModifier?_eq_none hmodifiers) o
  rw [hresolved, ← Draft.resolve_value o d]
  rfl

/-- A name and a null, a modifier without arguments, and nothing else. -/
def sampleDraft : Draft where
  names := [some "a", none]
  args := []
  nonLiteral := false
  isVolatile := false
  modifiers := [⟨"v", []⟩]
  props := none

/-- Its fields out of order, with a key of no meaning before them and most of them left out. -/
def sampleText : String :=
  "\x7b\"note\":[null],\"modifiers\":[\x7b\"property\":\"v\"\x7d],\"decoratorNames\":[\"a\",null]\x7d "

def sampleModifier : Piece :=
  ⟨'\x7b' :: (stringChars "property" ++ ':' :: (stringChars "v" ++ ['\x7d'])), 1⟩

def sampleEntries : List Labelled :=
  [⟨⟨['[', 'n', 'u', 'l', 'l', ']'], 0⟩, "note", stringChars "note"⟩,
   ⟨⟨'[' :: (sampleModifier.text ++ [']']), 2⟩, "modifiers", stringChars "modifiers"⟩,
   ⟨⟨(Value.array [.string "a", .null]).chars, 1⟩, "decoratorNames", stringChars "decoratorNames"⟩]

theorem sampleModifier_describes : RecordText (Modifier.slots ⟨"v", []⟩) sampleModifier := by
  have hproperty : Spells (.string "v") ⟨stringChars "v", 0⟩ :=
    ⟨by simpa only [Value.Spelled] using ScalarText.string (stringText_stringChars "v"), rfl⟩
  refine @RecordText.object _ [⟨⟨stringChars "v", 0⟩, "property", stringChars "property"⟩] _
    (.first .nil .nil .nil (.close .nil)) ?_ ?_ ?_
  · simpa using stringText_stringChars "property"
  · simp [Modifier.slots, Slot.ofTree]
  · simp only [Modifier.slots, List.forall_mem_cons]
    exact ⟨Or.inl ⟨_, rfl, hproperty⟩, Or.inr ⟨rfl, trivial⟩, fun _ h => absurd h List.not_mem_nil⟩

theorem sampleText_document : DocumentText sampleDraft.slots sampleText := by
  have hmodifiers : ListText (fun m => RecordText m.slots) sampleDraft.modifiers
      ⟨'[' :: (sampleModifier.text ++ [']']), 2⟩ :=
    @ListText.mk _ _ _ [sampleModifier] _ (.first .nil (.close .nil))
      (.cons sampleModifier_describes .nil)
  have hnames : Spells (.array [.string "a", .null])
      ⟨(Value.array [.string "a", .null]).chars, 1⟩ :=
    .chars (by simp [Value.Whole, WholeItems])
  have hnote : WellFormed ['[', 'n', 'u', 'l', 'l', ']'] :=
    .array (.first (p := ['n', 'u', 'l', 'l']) .nil (.close .nil)) (by simpa using WellFormed.null)
  refine ⟨[], _, [' '], .nil, by simp [Blanks, isSpace],
    @RecordText.object _ sampleEntries _
      (.first .nil .nil .nil (.next .nil .nil .nil .nil (.next .nil .nil .nil .nil (.close .nil))))
      ?_ ?_ ?_, by decide, by decide⟩
  · simp [sampleEntries, stringText_stringChars]
  · simp [sampleEntries, Draft.slots, Slot.defaulted, hnote]
  · simp only [Draft.slots, List.forall_mem_cons]
    exact ⟨Or.inl ⟨_, rfl, Or.inl hnames⟩, Or.inr ⟨rfl, rfl⟩, Or.inr ⟨rfl, rfl⟩,
      Or.inr ⟨rfl, rfl⟩, Or.inl ⟨_, rfl, Or.inl hmodifiers⟩, Or.inr ⟨rfl, rfl⟩,
      fun _ h => absurd h List.not_mem_nil⟩

theorem ofText_sampleText :
    (∀ m ∈ sampleDraft.modifiers, ¬Text.AllBlank m.property)
      ∧ DocumentText sampleDraft.slots sampleText
      ∧ (ofText Options.default sampleText).map Traced.value = .ok
        { names := (sampleDraft.names.filterMap id).filterMap (Name.classify? Options.default)
          args := []
          nonLiteral := false
          isVolatile := false
          modifiers := [⟨"v", []⟩]
          props := none } := by
  have hmodifiers : ∀ m ∈ sampleDraft.modifiers, ¬Text.AllBlank m.property := by
    intro m hm hblank
    obtain rfl := List.mem_singleton.mp hm
    exact absurd (hblank 'v' (List.mem_singleton.mpr rfl)) (by decide)
  exact ⟨hmodifiers, sampleText_document,
    ofText_of_describes Options.default sampleDraft sampleText hmodifiers sampleText_document⟩

/-! ## What the options decide -/

/-- A member without the categories of its names. -/
def uncategorized (m : Member) : Member × List String :=
  ({ m with names := [] }, m.names.map Name.text)

theorem Draft.resolve_uncategorized (o o' : Options) (d : Draft) :
    (d.resolve o).value.uncategorized = (d.resolve o').value.uncategorized := by
  have htexts : ∀ o : Options, ((d.names.filterMap id).filterMap (Name.classify? o)).map Name.text
      = (d.names.filterMap id).filterMap fun raw =>
          if Text.isBlankText raw then none else some (Text.trim raw) := by
    intro o
    rw [List.map_filterMap]
    simp only [Name.classify?_text]
  rw [Draft.resolve_value, Draft.resolve_value, uncategorized, uncategorized]
  simp only [htexts]

theorem ofText_eq_error_iff (o : Options) (text : String) (e : DocumentError) :
    ofText o text = .error e ↔
      (∃ cause, Draft.decoder.run text = .error cause ∧ e = .malformed cause) ∨
      (∃ d i, Draft.decoder.run text = .ok d ∧ d.emptyModifier? = some i
        ∧ e = .emptyModifier i) := by
  cases hrun : Draft.decoder.run text with
  | error cause =>
      rw [ofText_malformed hrun]
      simp [eq_comm]
  | ok d =>
      cases hempty : d.emptyModifier? with
      | some i =>
          rw [ofText_blank hrun hempty]
          simp [hempty, eq_comm]
      | none =>
          rw [ofText_resolved hrun hempty]
          simp [hempty]

/-- Refusal does not depend on the options, and neither does anything of an accepted member but the
categories of its names. A text is refused for a blank modifier exactly where all of it, blanks
behind it excepted, is a member document, and then the first such modifier is the one reported; any
other text is refused for what is wrong with it as JSON. -/
theorem ofText_ignores_options (text : String) (o o' : Options) :
    (∀ e, ofText o text = .error e ↔ ofText o' text = .error e)
      ∧ (∀ i, ofText o text = .error (.emptyModifier i) ↔
          ∃ d b, Draft.decoder maxNesting text.toList = .ok (d, b) ∧ Blanks b
            ∧ IsLeast {j | ∃ m, d.modifiers[j]? = some m ∧ Text.AllBlank m.property} i)
      ∧ (∀ cause, ofText o text = .error (.malformed cause) ↔
          Draft.decoder.run text = .error cause)
      ∧ (ofText o text).map (fun x => x.value.uncategorized)
          = (ofText o' text).map fun x => x.value.uncategorized := by
  refine ⟨fun e => ?_, fun i => ?_, fun cause => ?_, ?_⟩
  · rw [ofText_eq_error_iff, ofText_eq_error_iff]
  · rw [ofText_eq_error_iff]
    simp only [reduceCtorEq, and_false, exists_false, false_or, DocumentError.emptyModifier.injEq]
    constructor
    · intro h
      obtain ⟨d, j, hd, hj, rfl⟩ := h
      obtain ⟨b, hrun, hb⟩ := Decoder.run_eq_ok.mp hd
      exact ⟨d, b, hrun, hb, Draft.emptyModifier?_eq_some.mp hj⟩
    · intro h
      obtain ⟨d, b, hrun, hb, hleast⟩ := h
      exact ⟨d, i, Decoder.run_eq_ok.mpr ⟨b, hrun, hb⟩,
        Draft.emptyModifier?_eq_some.mpr hleast, rfl⟩
  · rw [ofText_eq_error_iff]
    simp
  · cases hrun : Draft.decoder.run text with
    | error cause => rw [ofText_malformed hrun, ofText_malformed hrun]
    | ok d =>
        cases hempty : d.emptyModifier? with
        | some i => rw [ofText_blank hrun hempty, ofText_blank hrun hempty]
        | none =>
            rw [ofText_resolved hrun hempty, ofText_resolved hrun hempty]
            exact congrArg Except.ok (Draft.resolve_uncategorized o o' d)

end Member

end Adorn
