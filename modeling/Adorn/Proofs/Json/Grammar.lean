import Adorn.Json.Tree

/-!
# The grammar of documents

Which texts spell which trees, said without a reader. Between tokens
there may be any blanks, a character of a string may be escaped in
every way there is, and a numeral may carry a fraction and an exponent.

The grammar comes in two strengths. `Value.Spelled` relates a tree to
its texts. `WellFormed` only asks for the brackets, commas and tokens
to be in order and knows no tree: half a surrogate pair and a numeral
beyond every range are well formed and spell nothing.

Arrays and objects are taken apart by `ItemsText` and `EntriesText`
into the texts of their parts. The flag of the two tells whether no
part has come yet, since a comma stands before every part but the
first.
-/

namespace Adorn.Json

open Text (isDigit hexValue4?)

/-- Any number of blanks. -/
def Blanks (b : List Char) : Prop :=
  ∀ c ∈ b, isSpace c = true

/-! ## Strings -/

/-- The spellings of a character inside a string. -/
inductive CharText : Char → List Char → Prop where
  | plain {c : Char} (hquote : c ≠ '"') (hslash : c ≠ '\\') (hcontrol : ¬c.toNat < 0x20) :
      CharText c [c]
  | short {c d : Char} (h : shortEscape? d = some c) : CharText c ['\\', d]
  | numeric {a b c d : Char} {n : Nat} (hn : hexValue4? a b c d = some n)
      (hleading : isLeading n = false) (htrailing : isTrailing n = false) :
      CharText (Char.ofNat n) ['\\', 'u', a, b, c, d]
  | pair {a b c d a' b' c' d' : Char} {n m : Nat} (hn : hexValue4? a b c d = some n)
      (hleading : isLeading n = true) (hm : hexValue4? a' b' c' d' = some m)
      (htrailing : isTrailing m = true) :
      CharText (paired n m) ['\\', 'u', a, b, c, d, '\\', 'u', a', b', c', d']

/-- The spellings of the characters between two quotes. -/
inductive CharsText : List Char → List Char → Prop where
  | nil : CharsText [] []
  | cons {c : Char} {cs p t : List Char} (hc : CharText c p) (hcs : CharsText cs t) :
      CharsText (c :: cs) (p ++ t)

/-- The spellings of a string. -/
inductive StringText (s : String) : List Char → Prop where
  | mk {t : List Char} (h : CharsText s.toList t) : StringText s ('"' :: (t ++ ['"']))

/-- What may stand between two quotes, whether or not it spells characters. -/
inductive QuotableText : List Char → Prop where
  | nil : QuotableText []
  | plain {c : Char} {t : List Char} (hquote : c ≠ '"') (hslash : c ≠ '\\')
      (hcontrol : ¬c.toNat < 0x20) (ht : QuotableText t) : QuotableText (c :: t)
  | short {c d : Char} {t : List Char} (h : shortEscape? d = some c) (ht : QuotableText t) :
      QuotableText ('\\' :: d :: t)
  | numeric {a b c d : Char} {n : Nat} {t : List Char} (hn : hexValue4? a b c d = some n)
      (ht : QuotableText t) : QuotableText ('\\' :: 'u' :: a :: b :: c :: d :: t)

/-- A text between two quotes. -/
inductive QuotedText : List Char → Prop where
  | mk {t : List Char} (h : QuotableText t) : QuotedText ('"' :: (t ++ ['"']))

/-! ## Numerals -/

/-- One digit or more. -/
def Digits (ds : List Char) : Prop :=
  ds ≠ [] ∧ ∀ d ∈ ds, isDigit d = true

inductive FractionText : Option (List Char) → List Char → Prop where
  | absent : FractionText none []
  | present {ds : List Char} (hds : Digits ds) : FractionText (some ds) ('.' :: ds)

inductive ExponentText : Option (Bool × List Char) → List Char → Prop where
  | absent : ExponentText none []
  | unsigned {c : Char} {ds : List Char} (hc : c = 'e' ∨ c = 'E') (hds : Digits ds) :
      ExponentText (some (false, ds)) (c :: ds)
  | plus {c : Char} {ds : List Char} (hc : c = 'e' ∨ c = 'E') (hds : Digits ds) :
      ExponentText (some (false, ds)) (c :: '+' :: ds)
  | minus {c : Char} {ds : List Char} (hc : c = 'e' ∨ c = 'E') (hds : Digits ds) :
      ExponentText (some (true, ds)) (c :: '-' :: ds)

def signText (negative : Bool) : List Char :=
  if negative then ['-'] else []

/-- The spelling of a numeral. A leading zero stands alone before the point. -/
structure NumeralText (n : Numeral) (t : List Char) : Prop where
  whole : Digits n.whole
  zero : ∀ d ds, n.whole ≠ '0' :: d :: ds
  parts : ∃ f x, FractionText n.fraction f ∧ ExponentText n.exponent x ∧
    t = signText n.negative ++ (n.whole ++ (f ++ x))

/-- The spellings of a scalar. -/
inductive ScalarText : Scalar → List Char → Prop where
  | null : ScalarText .null ['n', 'u', 'l', 'l']
  | yes : ScalarText (.boolean true) ['t', 'r', 'u', 'e']
  | no : ScalarText (.boolean false) ['f', 'a', 'l', 's', 'e']
  | number {n : Numeral} {x : Number} {t : List Char} (ht : NumeralText n t)
      (hx : n.value = .ok x) : ScalarText (.number x) t
  | string {s : String} {t : List Char} (ht : StringText s t) : ScalarText (.string s) t

/-! ## Arrays and objects -/

/-- What stands behind the opening bracket of an array, or behind an item of it, with the texts of
the items to come. -/
inductive ItemsText : Bool → List (List Char) → List Char → Prop where
  | close {first : Bool} {b : List Char} (hb : Blanks b) : ItemsText first [] (b ++ [']'])
  | first {b p t : List Char} {ps : List (List Char)} (hb : Blanks b)
      (ht : ItemsText false ps t) : ItemsText true (p :: ps) (b ++ (p ++ t))
  | next {b b' p t : List Char} {ps : List (List Char)} (hb : Blanks b) (hb' : Blanks b')
      (ht : ItemsText false ps t) : ItemsText false (p :: ps) (b ++ ',' :: (b' ++ (p ++ t)))

/-- What stands behind the opening bracket of an object, or behind an entry of it, with the texts of
the keys and values to come. -/
inductive EntriesText : Bool → List (List Char × List Char) → List Char → Prop where
  | close {first : Bool} {b : List Char} (hb : Blanks b) : EntriesText first [] (b ++ ['\x7d'])
  | first {b c d k p t : List Char} {ps : List (List Char × List Char)} (hb : Blanks b)
      (hc : Blanks c) (hd : Blanks d) (ht : EntriesText false ps t) :
      EntriesText true ((k, p) :: ps) (b ++ (k ++ (c ++ ':' :: (d ++ (p ++ t)))))
  | next {b b' c d k p t : List Char} {ps : List (List Char × List Char)} (hb : Blanks b)
      (hb' : Blanks b') (hc : Blanks c) (hd : Blanks d) (ht : EntriesText false ps t) :
      EntriesText false ((k, p) :: ps)
        (b ++ ',' :: (b' ++ (k ++ (c ++ ':' :: (d ++ (p ++ t))))))

mutual

/-- The texts that spell a tree, without blanks around them. -/
def Value.Spelled : Value → List Char → Prop
  | .scalar s, t => ScalarText s t
  | .array vs, t => ∃ ps inner, t = '[' :: inner ∧ ItemsText true ps inner ∧ SpelledItems vs ps
  | .object es, t =>
    ∃ ps inner, t = '\x7b' :: inner ∧ EntriesText true ps inner ∧ SpelledEntries es ps

def SpelledItems : List Value → List (List Char) → Prop
  | [], ps => ps = []
  | v :: vs, ps => ∃ p ps', ps = p :: ps' ∧ v.Spelled p ∧ SpelledItems vs ps'

def SpelledEntries : List (String × Value) → List (List Char × List Char) → Prop
  | [], ps => ps = []
  | (k, v) :: es, ps =>
    ∃ kt p ps', ps = (kt, p) :: ps' ∧ StringText k kt ∧ v.Spelled p ∧ SpelledEntries es ps'

end

/-- The texts with their brackets, commas and tokens in order, without blanks around them. -/
inductive WellFormed : List Char → Prop where
  | null : WellFormed ['n', 'u', 'l', 'l']
  | yes : WellFormed ['t', 'r', 'u', 'e']
  | no : WellFormed ['f', 'a', 'l', 's', 'e']
  | number {n : Numeral} {t : List Char} (ht : NumeralText n t) : WellFormed t
  | string {t : List Char} (ht : QuotedText t) : WellFormed t
  | array {ps : List (List Char)} {inner : List Char} (hi : ItemsText true ps inner)
      (hps : ∀ p ∈ ps, WellFormed p) : WellFormed ('[' :: inner)
  | object {ps : List (List Char × List Char)} {inner : List Char}
      (hi : EntriesText true ps inner) (hkeys : ∀ p ∈ ps, QuotedText p.1)
      (hps : ∀ p ∈ ps, WellFormed p.2) : WellFormed ('\x7b' :: inner)

/-! ## Where a token begins and ends -/

/-- What may follow a numeral without becoming part of it. -/
def Delimited (rest : List Char) : Prop :=
  ∀ c t, rest = c :: t → isDigit c = false ∧ c ≠ '.' ∧ c ≠ 'e' ∧ c ≠ 'E'

theorem Delimited.nil : Delimited [] := fun _ _ h => nomatch h

theorem Delimited.cons {c : Char} {t : List Char}
    (h : isDigit c = false ∧ c ≠ '.' ∧ c ≠ 'e' ∧ c ≠ 'E') : Delimited (c :: t) := by
  intro d u heq
  cases heq
  exact h

theorem isSpace_delimits {c : Char} (h : isSpace c = true) :
    isDigit c = false ∧ c ≠ '.' ∧ c ≠ 'e' ∧ c ≠ 'E' := by
  simp only [isSpace, Bool.or_eq_true, beq_iff_eq] at h
  rcases h with ((rfl | rfl) | rfl) | rfl <;> decide

theorem Delimited.blanks {b rest : List Char} (hb : Blanks b) (h : Delimited rest) :
    Delimited (b ++ rest) := by
  cases b with
  | nil => exact h
  | cons c b => exact .cons (isSpace_delimits (hb c (List.mem_cons_self ..)))

/-- What follows an item of an array. -/
theorem ItemsText.delimited {ps : List (List Char)} {t : List Char} (h : ItemsText false ps t)
    (rest : List Char) : Delimited (t ++ rest) := by
  cases h with
  | close hb =>
      rw [List.append_assoc]
      exact .blanks hb (.cons (by decide))
  | next hb _ _ =>
      rw [List.append_assoc]
      exact .blanks hb (.cons (by decide))

/-- What follows an entry of an object. -/
theorem EntriesText.delimited {ps : List (List Char × List Char)} {t : List Char}
    (h : EntriesText false ps t) (rest : List Char) : Delimited (t ++ rest) := by
  cases h with
  | close hb =>
      rw [List.append_assoc]
      exact .blanks hb (.cons (by decide))
  | next hb _ _ _ _ =>
      rw [List.append_assoc]
      exact .blanks hb (.cons (by decide))

/-- A text that starts with a token which closes no array. -/
def Begins (t : List Char) : Prop :=
  ∃ c u, t = c :: u ∧ isSpace c = false ∧ c ≠ ']'

theorem isDigit_begins {c : Char} (h : isDigit c = true) : isSpace c = false ∧ c ≠ ']' := by
  simp only [isDigit, Bool.and_eq_true, decide_eq_true_eq] at h
  constructor
  · rw [Bool.eq_false_iff]
    intro hspace
    simp only [isSpace, Bool.or_eq_true, beq_iff_eq] at hspace
    rcases hspace with ((rfl | rfl) | rfl) | rfl <;> exact absurd h (by decide)
  · rintro rfl
    exact absurd h (by decide)

theorem NumeralText.begins {n : Numeral} {t : List Char} (h : NumeralText n t) : Begins t := by
  obtain ⟨⟨hne, hdigits⟩, -, f, x, -, -, rfl⟩ := h
  cases hsign : n.negative with
  | true => exact ⟨'-', _, rfl, by decide, by decide⟩
  | false =>
      cases hwhole : n.whole with
      | nil => exact absurd hwhole hne
      | cons d ds =>
          have hd : isDigit d = true := hdigits d (by rw [hwhole]; exact List.mem_cons_self ..)
          obtain ⟨hspace, hclose⟩ := isDigit_begins hd
          exact ⟨d, ds ++ (f ++ x), rfl, hspace, hclose⟩

theorem ScalarText.begins {s : Scalar} {t : List Char} (h : ScalarText s t) : Begins t := by
  cases h with
  | null | yes | no => exact ⟨_, _, rfl, by decide, by decide⟩
  | number ht _ => exact ht.begins
  | string ht =>
      obtain ⟨_⟩ := ht
      exact ⟨_, _, rfl, by decide, by decide⟩

theorem Value.Spelled.begins {v : Value} {t : List Char} (h : v.Spelled t) : Begins t := by
  cases v with
  | scalar s => exact ScalarText.begins (by simpa only [Value.Spelled] using h)
  | array vs =>
      simp only [Value.Spelled] at h
      obtain ⟨_, _, rfl, -, -⟩ := h
      exact ⟨_, _, rfl, by decide, by decide⟩
  | object es =>
      simp only [Value.Spelled] at h
      obtain ⟨_, _, rfl, -, -⟩ := h
      exact ⟨_, _, rfl, by decide, by decide⟩

theorem WellFormed.begins {t : List Char} (h : WellFormed t) : Begins t := by
  cases h with
  | null | yes | no | array _ _ | object _ _ _ => exact ⟨_, _, rfl, by decide, by decide⟩
  | number ht => exact ht.begins
  | string ht =>
      obtain ⟨_⟩ := ht
      exact ⟨_, _, rfl, by decide, by decide⟩

/-! ## What spells a tree is well formed -/

theorem CharsText.quotable {cs t : List Char} (h : CharsText cs t) : QuotableText t := by
  induction h with
  | nil => exact .nil
  | cons hc _ ih =>
      cases hc with
      | plain hquote hslash hcontrol => exact .plain hquote hslash hcontrol ih
      | short hd => exact .short hd ih
      | numeric hn _ _ => exact .numeric hn ih
      | pair hn _ hm _ => exact .numeric hn (.numeric hm ih)

theorem StringText.quoted {s : String} {t : List Char} (h : StringText s t) : QuotedText t := by
  obtain ⟨h⟩ := h
  exact .mk h.quotable

theorem ScalarText.wellFormed {s : Scalar} {t : List Char} (h : ScalarText s t) : WellFormed t := by
  cases h with
  | null => exact .null
  | yes => exact .yes
  | no => exact .no
  | number ht _ => exact .number ht
  | string ht => exact .string ht.quoted

mutual

theorem Value.Spelled.wellFormed : ∀ {v : Value} {t : List Char}, v.Spelled t → WellFormed t
  | .scalar s, t, h => by
      simp only [Value.Spelled] at h
      exact h.wellFormed
  | .array vs, t, h => by
      simp only [Value.Spelled] at h
      obtain ⟨ps, inner, rfl, hinner, hps⟩ := h
      exact .array hinner (SpelledItems.wellFormed hps)
  | .object es, t, h => by
      simp only [Value.Spelled] at h
      obtain ⟨ps, inner, rfl, hinner, hps⟩ := h
      exact .object hinner (fun p hp => (SpelledEntries.wellFormed hps p hp).1)
        fun p hp => (SpelledEntries.wellFormed hps p hp).2

theorem SpelledItems.wellFormed : ∀ {vs : List Value} {ps : List (List Char)},
    SpelledItems vs ps → ∀ p ∈ ps, WellFormed p
  | [], ps, h => by
      simp only [SpelledItems] at h
      simp [h]
  | v :: vs, ps, h => by
      simp only [SpelledItems] at h
      obtain ⟨p, ps', rfl, hv, hvs⟩ := h
      exact List.forall_mem_cons.mpr ⟨hv.wellFormed, SpelledItems.wellFormed hvs⟩

theorem SpelledEntries.wellFormed : ∀ {es : List (String × Value)}
    {ps : List (List Char × List Char)}, SpelledEntries es ps →
    ∀ p ∈ ps, QuotedText p.1 ∧ WellFormed p.2
  | [], ps, h => by
      simp only [SpelledEntries] at h
      simp [h]
  | (k, v) :: es, ps, h => by
      simp only [SpelledEntries] at h
      obtain ⟨l, p, ps', rfl, hk, hv, hes⟩ := h
      exact List.forall_mem_cons.mpr ⟨⟨hk.quoted, hv.wellFormed⟩, SpelledEntries.wellFormed hes⟩

end

end Adorn.Json
