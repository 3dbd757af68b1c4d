import Adorn.Expr.Render
import Adorn.Proofs.Json.Compact
import Adorn.Proofs.Wire.Streams

/-!
# Written expressions as JSON

Strings, flags, null, arrays, and objects whose keys are strings are
written as JSON would write them, up to blanks and the choice of
escapes. `Expr.tree?` is the tree that such an expression stands for,
and `Expr.spelled_chars` says that its written form spells that tree.
So the reader of documents reads it back.

The two sides know nothing of each other: the written form escapes all
control characters by their number, also those that a document may hold
as they are, and has names for three of them only.
-/

namespace Adorn

open Json Wire

/-! ## Strings -/

/-- Every character is spelled by its written form. -/
theorem charText_writtenChar (c : Char) : CharText c (writtenChar c) := by
  unfold writtenChar
  split_ifs with hquote hslash hline hreturn htab hcontrol
  · subst hquote; exact .short rfl
  · subst hslash; exact .short rfl
  · subst hline; exact .short rfl
  · subst hreturn; exact .short rfl
  · subst htab; exact .short rfl
  · simp only [Text.isControl, Bool.or_eq_true, Bool.and_eq_true, decide_eq_true_eq] at hcontrol
    exact charText_hex4 (by omega)
  · refine .plain hquote hslash fun hlow => hcontrol ?_
    simp only [Text.isControl, Bool.or_eq_true, decide_eq_true_eq]
    omega

theorem stringText_writtenString (s : String) : StringText s (writtenString s) :=
  .mk (charsText_flatMap charText_writtenChar s.toList)

/-! ## Layout

Behind a comma, behind a colon and inside the braces of an object there
is one blank. -/

theorem blanks_single : Blanks [' '] := by
  simp [Blanks, isSpace]

/-- A list between brackets is laid out as an array of its parts. -/
theorem Expr.itemsText_cons : (e : Expr) → (es : List Expr) →
    ∃ t, Expr.listOnto (e :: es) [']'] = e.chars ++ t ∧ ItemsText false (es.map Expr.chars) t
  | e, [] => ⟨[']'], by rw [Expr.listOnto, Expr.onto_eq], .close .nil⟩
  | e, f :: es => by
      obtain ⟨t, htext, ht⟩ := Expr.itemsText_cons f es
      have hnext := ItemsText.next (p := f.chars) .nil blanks_single ht
      refine ⟨_, ?_, hnext⟩
      rw [Expr.listOnto, Expr.onto_eq, htext]
      · rfl
      · nofun

theorem Expr.itemsText_list (es : List Expr) :
    ItemsText true (es.map Expr.chars) (Expr.listOnto es [']']) := by
  cases es with
  | nil => exact .close .nil
  | cons e es =>
      obtain ⟨t, htext, ht⟩ := Expr.itemsText_cons e es
      rw [htext]
      exact .first .nil ht

/-- The texts of the key and the value of a property. -/
def Property.texts : Property → List Char × List Char
  | .mk k e => (k.chars, e.chars)

theorem Property.onto_texts : (p : Property) → (rest : List Char) →
    p.onto rest = p.texts.1 ++ ':' :: ' ' :: (p.texts.2 ++ rest)
  | .mk k e, rest => by rw [Property.onto, Key.onto_eq, Expr.onto_eq, Property.texts]

/-- A list of properties between braces is laid out as an object of their keys and values. -/
theorem Property.entriesText_cons : (p : Property) → (ps : List Property) →
    ∃ t, Expr.propertiesOnto (p :: ps) [' ', '\x7d']
        = p.texts.1 ++ ':' :: ' ' :: (p.texts.2 ++ t)
      ∧ EntriesText false (ps.map Property.texts) t
  | p, [] => ⟨_, by rw [Expr.propertiesOnto, Property.onto_texts]; rfl, .close blanks_single⟩
  | p, q :: ps => by
      obtain ⟨t, htext, ht⟩ := Property.entriesText_cons q ps
      have hnext := EntriesText.next (k := q.texts.1) (p := q.texts.2) .nil blanks_single .nil
        blanks_single ht
      refine ⟨_, ?_, hnext⟩
      rw [Expr.propertiesOnto, Property.onto_texts, htext]
      · rfl
      · nofun

theorem Property.entriesText_list (ps : List Property) :
    ∃ inner, (Expr.object ps).chars = '\x7b' :: inner
      ∧ EntriesText true (ps.map Property.texts) inner := by
  cases ps with
  | nil => exact ⟨_, by rw [Expr.chars, Expr.onto]; rfl, .close .nil⟩
  | cons p ps =>
      obtain ⟨t, htext, ht⟩ := Property.entriesText_cons p ps
      have hfirst := EntriesText.first (k := p.texts.1) (p := p.texts.2) blanks_single .nil
        blanks_single ht
      refine ⟨_, ?_, hfirst⟩
      rw [Expr.chars, Expr.onto, List.append_nil, htext]
      · rfl
      · nofun

/-! ## Trees -/

mutual

/-- The tree that an expression stands for, if JSON has one for it. -/
def Expr.tree? : Expr → Option Value
  | .string s => some (.string s)
  | .boolean b => some (.boolean b)
  | .null => some .null
  | .array es => (Expr.trees? es).map .array
  | .object ps => (Property.entries? ps).map .object
  | _ => none

def Expr.trees? : List Expr → Option (List Value)
  | [] => some []
  | e :: es => do return (← e.tree?) :: (← Expr.trees? es)

def Property.entries? : List Property → Option (List (String × Value))
  | [] => some []
  | .mk (.string k) e :: ps => do return (k, ← e.tree?) :: (← Property.entries? ps)
  | _ => none

end

mutual

/-- An expression that stands for a tree is written as a spelling of it. -/
theorem Expr.spelled_chars : (e : Expr) → {v : Value} → e.tree? = some v → v.Spelled e.chars
  | .string s, v, h => by
      rw [Expr.tree?] at h
      cases h
      simp only [Value.Spelled, Expr.chars, Expr.onto, List.append_nil]
      exact .string (stringText_writtenString s)
  | .boolean true, v, h => by
      rw [Expr.tree?] at h
      cases h
      exact .yes
  | .boolean false, v, h => by
      rw [Expr.tree?] at h
      cases h
      exact .no
  | .null, v, h => by
      rw [Expr.tree?] at h
      cases h
      exact .null
  | .array es, v, h => by
      rw [Expr.tree?] at h
      obtain ⟨vs, hvs, rfl⟩ := Option.map_eq_some_iff.mp h
      simp only [Value.Spelled, Expr.chars, Expr.onto]
      exact ⟨_, _, rfl, Expr.itemsText_list es, Expr.spelled_list es hvs⟩
  | .object ps, v, h => by
      rw [Expr.tree?] at h
      obtain ⟨entries, hentries, rfl⟩ := Option.map_eq_some_iff.mp h
      obtain ⟨inner, htext, hinner⟩ := Property.entriesText_list ps
      simp only [Value.Spelled]
      exact ⟨_, inner, htext, hinner, Property.spelled_list ps hentries⟩
  | .number _, _, h | .template _, _, h | .identifier _, _, h | .call _ _, _, h
  | .access _ _, _, h | .function _ _ _, _, h | .arrow _ _, _, h | .raw _, _, h => by
      simp [Expr.tree?] at h

theorem Expr.spelled_list : (es : List Expr) → {vs : List Value} → Expr.trees? es = some vs →
    SpelledItems vs (es.map Expr.chars)
  | [], vs, h => by
      rw [Expr.trees?] at h
      cases h
      simp [SpelledItems]
  | e :: es, vs, h => by
      simp only [Expr.trees?, Option.pure_def, Option.bind_eq_bind, Option.bind_eq_some_iff] at h
      obtain ⟨v, hv, ws, hws, ⟨⟩⟩ := h
      simp only [SpelledItems]
      exact ⟨_, _, rfl, e.spelled_chars hv, Expr.spelled_list es hws⟩

theorem Property.spelled_list : (ps : List Property) → {entries : List (String × Value)} →
    Property.entries? ps = some entries → SpelledEntries entries (ps.map Property.texts)
  | [], entries, h => by
      rw [Property.entries?] at h
      cases h
      simp [SpelledEntries]
  | .mk (.string k) e :: ps, entries, h => by
      simp only [Property.entries?, Option.pure_def, Option.bind_eq_bind,
        Option.bind_eq_some_iff] at h
      obtain ⟨v, hv, es, hes, ⟨⟩⟩ := h
      have hkey : StringText k (Key.string k).chars := by
        rw [Key.chars, Key.onto, List.append_nil]
        exact stringText_writtenString k
      simp only [SpelledEntries]
      exact ⟨_, _, _, rfl, hkey, e.spelled_chars hv, Property.spelled_list ps hes⟩
  | .mk (.identifier _) _ :: _, _, h | .mk (.computed _) _ :: _, _, h => by
      simp [Property.entries?] at h

end

/-- The written form of an expression that JSON can hold is a well formed document, and the reader
of documents gives its tree, unless it nests more than 127 arrays and objects. A string is read back
as it was, whatever characters it holds. -/
theorem Expr.render_reads_back :
    (∀ (e : Expr) (v : Value), e.tree? = some v → WellFormed e.render.toList
      ∧ Value.ofText e.render
        = if v.nesting ≤ 127 then .ok v else .error .nestedTooDeep)
    ∧ ∀ s : String, Value.ofText (Expr.string s).render = .ok (.string s) := by
  have hread : ∀ (e : Expr) (v : Value), e.tree? = some v → WellFormed e.render.toList
      ∧ Value.ofText e.render
        = if v.nesting ≤ 127 then .ok v else .error .nestedTooDeep := by
    intro e v hv
    have hspelled := e.spelled_chars hv
    have htext : e.render.toList = [] ++ (e.chars ++ []) := by
      rw [Expr.render, String.toList_ofList, List.nil_append, List.append_nil]
    refine ⟨?_, Decoder.run_of_reads hspelled.reads .nil .nil htext⟩
    rw [Expr.render, String.toList_ofList]
    exact hspelled.wellFormed
  refine ⟨hread, fun s => ?_⟩
  have hs := (hread (.string s) _ rfl).2
  rwa [if_pos (by simp [Value.nesting])] at hs

/-- A key that comes twice, and a string of characters from both blocks of controls. -/
def controlRecord : Expr :=
  .object [.mk (.string "k\"") (.array [.string "\x00\x08\n\\\x7f\u0085", .null]),
    .mk (.string "k\"") (.boolean false)]

def controlTree : Value :=
  .object [("k\"", .array [.string "\x00\x08\n\\\x7f\u0085", .null]), ("k\"", .boolean false)]

theorem controlRecord_reads_back :
    controlRecord.tree? = some controlTree ∧ WellFormed controlRecord.render.toList
      ∧ Value.ofText controlRecord.render = .ok controlTree := by
  obtain ⟨hformed, hread⟩ := Expr.render_reads_back.1 controlRecord controlTree rfl
  rw [if_pos (by simp [controlTree, Value.nesting, nestingEntries, nestingItems])] at hread
  exact ⟨rfl, hformed, hread⟩

end Adorn
