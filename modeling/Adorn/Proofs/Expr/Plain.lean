import Adorn.Proofs.Expr.Written

/-!
# Plain expressions can be read back

Numbers, names and raw text are written as they are, so an expression
that holds arbitrary text in such a place may be written like another.
A plain expression holds lexically proper names and numbers only, and
its written form belongs to no other plain expression.

Calls and accesses are written behind what they apply to, so the text
of `f(x).y` begins with the texts of `f` and of `f(x)`. An expression is
therefore taken apart into a head and the suffixes behind it
(`Expr.spine`), and `Expr.Cancels` compares an expression with a head
and its suffixes: it is the head with some of them. `Expr.cancels`
proves this by recursion on the expression, and `Expr.Cancels.closed`
draws the conclusion for expressions that nothing extends.
-/

namespace Adorn

open Json (string)

/-! ## Names -/

def isNameStart (c : Char) : Bool :=
  c.isAlpha || c == '_' || c == '$'

def isNameChar (c : Char) : Bool :=
  isNameStart c || Text.isDigit c

/-- A letter, an underscore or a dollar sign, and any of these and digits behind it. -/
def isProperName (s : String) : Bool :=
  s.toList.head?.any isNameStart && s.toList.all isNameChar

/-- One digit or more. -/
def isDigits (s : String) : Bool :=
  !s.toList.isEmpty && s.toList.all Text.isDigit

def isReserved (s : String) : Bool :=
  s == "true" || s == "false" || s == "null"

/-! ## Plain expressions -/

mutual

/-- Whether an expression is made of strings, numbers of digits, flags, null, names, arrays,
objects, calls and accesses only. -/
def Expr.isPlain : Expr → Bool
  | .string _ | .boolean _ | .null => true
  | .number n => isDigits n
  | .identifier n => isProperName n && !isReserved n
  | .array es => Expr.arePlain es
  | .object ps => Property.arePlain ps
  | .call f es => f.isPlain && Expr.arePlain es
  | .access e p => e.isPlain && isProperName p
  | .template _ | .function _ _ _ | .arrow _ _ | .raw _ => false

def Expr.arePlain : List Expr → Bool
  | [] => true
  | e :: es => e.isPlain && Expr.arePlain es

def Property.arePlain : List Property → Bool
  | [] => true
  | .mk k e :: ps => k.isPlain && e.isPlain && Property.arePlain ps

def Key.isPlain : Key → Bool
  | .identifier n => isProperName n
  | .string _ => true
  | .computed e => e.isPlain

end

/-! ## Where a piece of text stops -/

/-- A text that does not go on with a character of a class. -/
def Stops (p : Char → Bool) (r : List Char) : Prop :=
  ∀ c t, r = c :: t → p c = false

theorem Stops.cons {p : Char → Bool} {c : Char} {t : List Char} (h : p c = false) :
    Stops p (c :: t) := by
  intro d u heq
  cases heq
  exact h

/-- A run of characters of a class ends where the class does. -/
theorem Stops.cancel {p : Char → Bool} : ∀ {w w' r r' : List Char}, w.all p = true →
    w'.all p = true → Stops p r → Stops p r' → w ++ r = w' ++ r' → w = w' ∧ r = r'
  | [], [], _, _, _, _, _, _, h => ⟨rfl, h⟩
  | [], c :: w', r, r', _, hw', hr, _, h => by
      have hc : p c = true := by
        rw [List.all_cons, Bool.and_eq_true] at hw'
        exact hw'.1
      rw [hr c (w' ++ r') h] at hc
      cases hc
  | c :: w, [], r, r', hw, _, _, hr', h => by
      have hc : p c = true := by
        rw [List.all_cons, Bool.and_eq_true] at hw
        exact hw.1
      rw [hr' c (w ++ r) h.symm] at hc
      cases hc
  | c :: w, d :: w', r, r', hw, hw', hr, hr', h => by
      rw [List.all_cons, Bool.and_eq_true] at hw hw'
      simp only [List.cons_append, List.cons.injEq] at h
      obtain ⟨rfl, hrest⟩ := h
      obtain ⟨rfl, rfl⟩ := Stops.cancel hw.2 hw'.2 hr hr' hrest
      exact ⟨rfl, rfl⟩

/-- A character that makes a name longer, or an expression. -/
def canExtend (c : Char) : Bool :=
  isNameChar c || c == '(' || c == '.'

theorem Stops.name {r : List Char} (h : Stops canExtend r) : Stops isNameChar r := by
  intro c t hr
  have hc := h c t hr
  simp only [canExtend, Bool.or_eq_false_iff] at hc
  exact hc.1.1

/-! ## Heads and suffixes -/

/-- What is written behind an expression to call it or to access a property of it. -/
inductive Suffix where
  | call (arguments : List Expr)
  | access (property : String)

namespace Suffix

def isPlain : Suffix → Bool
  | .call es => Expr.arePlain es
  | .access p => isProperName p

def apply (e : Expr) : Suffix → Expr
  | .call es => .call e es
  | .access p => .access e p

def onto : Suffix → List Char → List Char
  | .call es, rest => '(' :: Expr.listOnto es (')' :: rest)
  | .access p, rest => '.' :: (p.toList ++ rest)

def allOnto (xs : List Suffix) (rest : List Char) : List Char :=
  xs.foldr Suffix.onto rest

theorem stops_allOnto (xs : List Suffix) {rest : List Char} (h : Stops isNameChar rest) :
    Stops isNameChar (allOnto xs rest) := by
  cases xs with
  | nil => exact h
  | cons x xs =>
      cases x with
      | call es => exact .cons (by decide)
      | access p => exact .cons (by decide)

end Suffix

/-- Neither a call nor an access. -/
def Expr.isHead : Expr → Bool
  | .call _ _ | .access _ _ => false
  | _ => true

/-- A plain expression is a head with suffixes. -/
theorem Expr.spine : (e : Expr) → e.isPlain = true → ∃ h : Expr, ∃ xs : List Suffix,
    h.isPlain = true ∧ h.isHead = true ∧ xs.all Suffix.isPlain = true
      ∧ xs.foldl Suffix.apply h = e ∧ ∀ rest, e.onto rest = h.onto (Suffix.allOnto xs rest)
  | .call f es, hplain => by
      rw [Expr.isPlain, Bool.and_eq_true] at hplain
      obtain ⟨h, xs, hh, hhead, hxs, hfold, honto⟩ := Expr.spine f hplain.1
      refine ⟨h, xs ++ [.call es], hh, hhead, ?_, ?_, fun rest => ?_⟩
      · simp [hxs, Suffix.isPlain, hplain.2]
      · simp [hfold, Suffix.apply]
      · rw [Expr.onto, honto]
        simp [Suffix.allOnto, Suffix.onto]
  | .access e p, hplain => by
      rw [Expr.isPlain, Bool.and_eq_true] at hplain
      obtain ⟨h, xs, hh, hhead, hxs, hfold, honto⟩ := Expr.spine e hplain.1
      refine ⟨h, xs ++ [.access p], hh, hhead, ?_, ?_, fun rest => ?_⟩
      · simp [hxs, Suffix.isPlain, hplain.2]
      · simp [hfold, Suffix.apply]
      · rw [Expr.onto, honto]
        simp [Suffix.allOnto, Suffix.onto]
  | .string s, hplain => ⟨.string s, [], hplain, rfl, rfl, rfl, fun _ => rfl⟩
  | .number n, hplain => ⟨.number n, [], hplain, rfl, rfl, rfl, fun _ => rfl⟩
  | .boolean b, hplain => ⟨.boolean b, [], hplain, rfl, rfl, rfl, fun _ => rfl⟩
  | .null, hplain => ⟨.null, [], hplain, rfl, rfl, rfl, fun _ => rfl⟩
  | .identifier n, hplain => ⟨.identifier n, [], hplain, rfl, rfl, rfl, fun _ => rfl⟩
  | .array es, hplain => ⟨.array es, [], hplain, rfl, rfl, rfl, fun _ => rfl⟩
  | .object ps, hplain => ⟨.object ps, [], hplain, rfl, rfl, rfl, fun _ => rfl⟩

/-! ## Words -/

/-- The word that a number, a flag, null or a name is written as. -/
def Expr.word? : Expr → Option String
  | .number n => some n
  | .boolean true => some "true"
  | .boolean false => some "false"
  | .null => some "null"
  | .identifier n => some n
  | _ => none

theorem Expr.onto_word {e : Expr} {w : String} (h : e.word? = some w) (rest : List Char) :
    e.onto rest = w.toList ++ rest := by
  fun_cases Expr.word? e <;> simp_all [Expr.word?, Expr.onto]
  all_goals subst h; simp

/-- The expression that a word is read as. -/
def Expr.ofWord (w : String) : Expr :=
  if isDigits w then .number w
  else if w = "true" then .boolean true
  else if w = "false" then .boolean false
  else if w = "null" then .null
  else .identifier w

theorem letter_above {c : Char} (h : c.isAlpha = true) : 65 ≤ c.toNat := by
  rcases (Bool.or_eq_true _ _).mp h with hupper | hlower
  · have hleast : 'A'.val ≤ c.val := (of_decide_eq_true hupper).1
    exact UInt32.le_iff_toNat_le.mp hleast
  · have hleast : 'a'.val ≤ c.val := of_decide_eq_true ((Bool.and_eq_true ..).mp hlower).1
    exact Nat.le_trans (by decide) (UInt32.le_iff_toNat_le.mp hleast)

theorem isNameStart_not_digit {c : Char} (h : isNameStart c = true) : Text.isDigit c = false := by
  by_contra hdigit
  simp only [Text.isDigit, Bool.not_eq_false, Bool.and_eq_true, decide_eq_true_eq] at hdigit
  simp only [isNameStart, Bool.or_eq_true, beq_iff_eq] at h
  rcases h with (hletter | rfl) | rfl
  · have hleast := letter_above hletter
    omega
  · exact absurd hdigit (by decide)
  · exact absurd hdigit (by decide)

theorem isProperName_spec {s : String} (h : isProperName s = true) :
    s.toList ≠ [] ∧ s.toList.all isNameChar = true ∧ isDigits s = false := by
  simp only [isProperName, Bool.and_eq_true] at h
  obtain ⟨hfirst, hall⟩ := h
  cases hs : s.toList with
  | nil => simp [hs] at hfirst
  | cons c cs =>
      have hc : isNameStart c = true := by simpa [hs] using hfirst
      refine ⟨List.cons_ne_nil _ _, hs ▸ hall, ?_⟩
      simp [isDigits, hs, isNameStart_not_digit hc]

theorem Expr.ofWord_word {e : Expr} {w : String} (hplain : e.isPlain = true)
    (h : e.word? = some w) : Expr.ofWord w = e := by
  cases e with
  | number n =>
      cases h
      rw [Expr.isPlain] at hplain
      rw [Expr.ofWord, if_pos hplain]
  | boolean b =>
      cases b with
      | true => cases h; rfl
      | false => cases h; rfl
  | null => cases h; rfl
  | identifier n =>
      cases h
      rw [Expr.isPlain, Bool.and_eq_true] at hplain
      simp only [isReserved, Bool.not_eq_true', Bool.or_eq_false_iff, beq_eq_false_iff_ne] at hplain
      rw [Expr.ofWord, (isProperName_spec hplain.1).2.2, if_neg Bool.false_ne_true,
        if_neg hplain.2.1.1, if_neg hplain.2.1.2, if_neg hplain.2.2]
  | string _ | template _ | array _ | object _ | call _ _ | access _ _ | function _ _ _ | arrow _ _
  | raw _ => cases h

/-- A word is made of the characters of names. -/
theorem Expr.word_name {e : Expr} {w : String} (hplain : e.isPlain = true)
    (h : e.word? = some w) : w.toList ≠ [] ∧ w.toList.all isNameChar = true := by
  cases e with
  | number n =>
      cases h
      rw [Expr.isPlain, isDigits, Bool.and_eq_true] at hplain
      refine ⟨by simpa using hplain.1, List.all_eq_true.mpr fun c hc => ?_⟩
      rw [isNameChar, List.all_eq_true.mp hplain.2 c hc, Bool.or_true]
  | boolean b =>
      cases b with
      | true => cases h; decide
      | false => cases h; decide
  | null => cases h; decide
  | identifier n =>
      cases h
      rw [Expr.isPlain, Bool.and_eq_true] at hplain
      have hname := isProperName_spec hplain.1
      exact ⟨hname.1, hname.2.1⟩
  | string _ | template _ | array _ | object _ | call _ _ | access _ _ | function _ _ _ | arrow _ _
  | raw _ => cases h

/-! ## How an expression starts -/

inductive Shape where
  | string
  | word
  | array
  | object

/-- The first character of a head tells its shape. -/
def Shape.of (c : Char) : Shape :=
  if c = '"' then .string
  else if c = '[' then .array
  else if c = '\x7b' then .object
  else .word

def Expr.shape : Expr → Shape
  | .string _ => .string
  | .array _ => .array
  | .object _ => .object
  | _ => .word

/-- A character that a plain expression starts with. -/
def opens (c : Char) : Bool :=
  isNameChar c || c == '"' || c == '[' || c == '\x7b'

theorem Shape.of_nameChar {c : Char} (h : isNameChar c = true) : Shape.of c = .word := by
  unfold Shape.of
  split_ifs with hquote hbracket hbrace
  · subst hquote; exact absurd h (by decide)
  · subst hbracket; exact absurd h (by decide)
  · subst hbrace; exact absurd h (by decide)
  · rfl

/-- What stands behind the opening brace of an object. -/
def Property.bracedOnto : List Property → List Char → List Char
  | [], rest => '\x7d' :: rest
  | ps, rest => ' ' :: Expr.propertiesOnto ps (' ' :: '\x7d' :: rest)

theorem Expr.object_onto (ps : List Property) (rest : List Char) :
    (Expr.object ps).onto rest = '\x7b' :: Property.bracedOnto ps rest := by
  cases ps with
  | nil => simp [Expr.onto, Property.bracedOnto]
  | cons p ps => simp [Expr.onto, Property.bracedOnto]

theorem word_starts {w : List Char} (hne : w ≠ []) (hall : w.all isNameChar = true)
    (rest : List Char) :
    ∃ c t, w ++ rest = c :: t ∧ Shape.of c = .word ∧ opens c = true := by
  obtain ⟨c, cs, rfl⟩ := List.exists_cons_of_ne_nil hne
  rw [List.all_cons, Bool.and_eq_true] at hall
  exact ⟨c, cs ++ rest, rfl, Shape.of_nameChar hall.1, by rw [opens, hall.1]; rfl⟩

theorem Expr.word_starts {e : Expr} {w : String} (hplain : e.isPlain = true)
    (hw : e.word? = some w) (rest : List Char) :
    ∃ c t, e.onto rest = c :: t ∧ Shape.of c = .word ∧ opens c = true := by
  rw [Expr.onto_word hw]
  exact Adorn.word_starts (Expr.word_name hplain hw).1 (Expr.word_name hplain hw).2 rest

theorem Expr.head_starts (e : Expr) (hplain : e.isPlain = true) (hhead : e.isHead = true)
    (rest : List Char) :
    ∃ c t, e.onto rest = c :: t ∧ Shape.of c = e.shape ∧ opens c = true := by
  cases e with
  | string s => exact ⟨'"', _, by rw [Expr.onto, writtenString]; rfl, rfl, rfl⟩
  | number n => exact Expr.word_starts hplain rfl rest
  | boolean b =>
      cases b with
      | true => exact Expr.word_starts hplain rfl rest
      | false => exact Expr.word_starts hplain rfl rest
  | null => exact Expr.word_starts hplain rfl rest
  | identifier n => exact Expr.word_starts hplain rfl rest
  | array es => exact ⟨'[', _, by rw [Expr.onto], rfl, rfl⟩
  | object ps => exact ⟨'\x7b', _, Expr.object_onto ps rest, rfl, rfl⟩
  | call _ _ | access _ _ => cases hhead
  | template _ | function _ _ _ | arrow _ _ | raw _ => simp [Expr.isPlain] at hplain

theorem Expr.starts {e : Expr} (hplain : e.isPlain = true) (rest : List Char) :
    ∃ c t, e.onto rest = c :: t ∧ opens c = true := by
  obtain ⟨h, xs, hh, hhead, _, _, honto⟩ := e.spine hplain
  obtain ⟨c, t, ht, _, hc⟩ := h.head_starts hh hhead (Suffix.allOnto xs rest)
  exact ⟨c, t, by rw [honto, ht], hc⟩

/-- Two heads that are written alike have the same shape. -/
theorem Expr.shape_eq {e h : Expr} {r s : List Char} (he : e.isPlain = true)
    (hehead : e.isHead = true) (hh : h.isPlain = true) (hhhead : h.isHead = true)
    (heq : e.onto r = h.onto s) : e.shape = h.shape := by
  obtain ⟨c, t, ht, hc, _⟩ := e.head_starts he hehead r
  obtain ⟨d, u, hu, hd, _⟩ := h.head_starts hh hhhead s
  rw [ht, hu] at heq
  cases heq
  rw [← hc, hd]

/-! ## Cancelling what is written -/

/-- Two strings that are written alike are the same, whatever follows them: a written string can be
read, and reading leaves what follows it. -/
theorem writtenString_cancel {s s' : String} {r r' : List Char}
    (h : writtenString s ++ r = writtenString s' ++ r') : s = s' ∧ r = r' := by
  have hread : ∀ (s : String) (r : List Char),
      string (s.toList.flatMap writtenChar ++ '"' :: r) = .ok (s, r) := fun s r =>
    Json.string_charsText (Json.charsText_flatMap charText_writtenChar s.toList) r
  have htail : s.toList.flatMap writtenChar ++ '"' :: r
      = s'.toList.flatMap writtenChar ++ '"' :: r' := by
    simpa [writtenString] using h
  have hsame := hread s r
  rw [htail, hread s' r'] at hsame
  cases hsame
  exact ⟨rfl, rfl⟩

/-- An expression that is written like the beginning of a head with suffixes is that head with some
of the suffixes. -/
def Expr.Cancels (e : Expr) : Prop :=
  ∀ (h : Expr) (xs : List Suffix) (r r' : List Char), h.isPlain = true → h.isHead = true →
    xs.all Suffix.isPlain = true → Stops isNameChar r → Stops canExtend r' →
    e.onto r = h.onto (Suffix.allOnto xs r') →
    ∃ ys zs, xs = ys ++ zs ∧ ys.foldl Suffix.apply h = e ∧ r = Suffix.allOnto zs r'

/-- Where nothing extends an expression, its written form determines it. -/
theorem Expr.Cancels.closed {e : Expr} (he : e.Cancels) {e' : Expr} {r r' : List Char}
    (hplain : e'.isPlain = true) (hr : Stops canExtend r) (hr' : Stops canExtend r')
    (heq : e.onto r = e'.onto r') : e = e' ∧ r = r' := by
  obtain ⟨h, xs, hh, hhead, hxs, hfold, honto⟩ := e'.spine hplain
  rw [honto] at heq
  obtain ⟨ys, zs, rfl, rfl, rfl⟩ := he h xs r r' hh hhead hxs hr.name hr' heq
  cases zs with
  | nil =>
      rw [List.append_nil] at hfold
      exact ⟨hfold, rfl⟩
  | cons z zs =>
      cases z with
      | call es => exact absurd (hr _ _ rfl) (by decide)
      | access p => exact absurd (hr _ _ rfl) (by decide)

/-- A head is compared with a head. -/
theorem Expr.Cancels.of_head {e : Expr} (he : e.isPlain = true) (hehead : e.isHead = true)
    (hcancel : ∀ {h : Expr} {r s : List Char}, h.isPlain = true → h.isHead = true →
      e.shape = h.shape → Stops isNameChar r → Stops isNameChar s → e.onto r = h.onto s →
      e = h ∧ r = s) : e.Cancels := by
  intro h xs r r' hh hhead _ hr hr' heq
  have hshape := Expr.shape_eq he hehead hh hhead heq
  obtain ⟨rfl, rfl⟩ := hcancel hh hhead hshape hr (Suffix.stops_allOnto xs hr'.name) heq
  exact ⟨[], xs, rfl, rfl, rfl⟩

theorem Expr.word_of_shape {h : Expr} (hh : h.isPlain = true) (hhead : h.isHead = true)
    (hshape : Shape.word = h.shape) : ∃ w, h.word? = some w := by
  cases h with
  | number n | identifier n => exact ⟨n, rfl⟩
  | boolean b =>
      cases b with
      | true => exact ⟨_, rfl⟩
      | false => exact ⟨_, rfl⟩
  | null => exact ⟨_, rfl⟩
  | string _ | array _ | object _ => cases hshape
  | call _ _ | access _ _ => cases hhead
  | template _ | function _ _ _ | arrow _ _ | raw _ => simp [Expr.isPlain] at hh

theorem Expr.cancels_word {e : Expr} {w : String} (he : e.isPlain = true)
    (hehead : e.isHead = true) (hshape : e.shape = .word) (hw : e.word? = some w) : e.Cancels := by
  refine .of_head he hehead fun hh hhead hsame hr hs heq => ?_
  obtain ⟨w', hw'⟩ := Expr.word_of_shape hh hhead (hshape ▸ hsame)
  rw [Expr.onto_word hw, Expr.onto_word hw'] at heq
  obtain ⟨hword, rfl⟩ :=
    Stops.cancel (Expr.word_name he hw).2 (Expr.word_name hh hw').2 hr hs heq
  rw [← Expr.ofWord_word he hw, ← Expr.ofWord_word hh hw', String.toList_inj.mp hword]
  exact ⟨rfl, rfl⟩

theorem Expr.cancels_string (s : String) : (Expr.string s).Cancels := by
  refine .of_head rfl rfl fun {h r t} hh hhead hshape hr ht heq => ?_
  cases h with
  | string s' =>
      rw [Expr.onto, Expr.onto] at heq
      obtain ⟨rfl, rfl⟩ := writtenString_cancel heq
      exact ⟨rfl, rfl⟩
  | _ => cases hshape

/-! ## Lists -/

/-- What stands behind a part of a list: a comma, unless the part is the last one. -/
def behindPart (last : Bool) (t : List Char) : List Char :=
  if last then t else ',' :: ' ' :: t

theorem Expr.listOnto_cons (e : Expr) (es : List Expr) (rest : List Char) :
    Expr.listOnto (e :: es) rest = e.onto (behindPart es.isEmpty (Expr.listOnto es rest)) := by
  cases es with
  | nil => simp [Expr.listOnto, behindPart]
  | cons f es => simp [Expr.listOnto, behindPart]

theorem Expr.propertiesOnto_cons (k : Key) (e : Expr) (ps : List Property) (rest : List Char) :
    Expr.propertiesOnto (.mk k e :: ps) rest = k.onto (':' :: ' ' :: e.onto
      (behindPart ps.isEmpty (Expr.propertiesOnto ps rest))) := by
  cases ps with
  | nil => simp [Expr.propertiesOnto, Property.onto, behindPart]
  | cons p ps => simp [Expr.propertiesOnto, Property.onto, behindPart]

/-- A character that closes a list. -/
def closes (c : Char) : Bool :=
  c == ']' || c == ')' || c == ' '

theorem not_of_closes {c : Char} (h : closes c = true) :
    canExtend c = false ∧ opens c = false ∧ c ≠ ',' := by
  simp only [closes, Bool.or_eq_true, beq_iff_eq] at h
  rcases h with (rfl | rfl) | rfl <;> decide

theorem stops_behindPart {last : Bool} {c : Char} {t r : List Char} (hc : closes c = true)
    (hlast : last = true → t = c :: r) : Stops canExtend (behindPart last t) := by
  cases last with
  | true =>
      rw [behindPart, if_pos rfl, hlast rfl]
      exact .cons (not_of_closes hc).1
  | false => exact .cons (by decide)

theorem behindPart_cancel {last last' : Bool} {c : Char} {t t' r r' : List Char}
    (hc : closes c = true) (hlast : last = true → t = c :: r)
    (hlast' : last' = true → t' = c :: r') (heq : behindPart last t = behindPart last' t') :
    t = t' := by
  have hcomma := (not_of_closes hc).2.2
  cases last with
  | true =>
      cases last' with
      | true => exact heq
      | false =>
          rw [behindPart, if_pos rfl, hlast rfl] at heq
          exact absurd (List.cons.inj heq).1 hcomma
  | false =>
      cases last' with
      | true =>
          rw [behindPart, behindPart, if_pos rfl, hlast' rfl] at heq
          exact absurd (List.cons.inj heq).1.symm hcomma
      | false => simpa [behindPart] using heq

theorem Expr.listOnto_empty (es : List Expr) (rest : List Char) (h : es.isEmpty = true) :
    Expr.listOnto es rest = rest := by
  rw [List.isEmpty_iff.mp h, Expr.listOnto]

theorem Expr.propertiesOnto_empty (ps : List Property) (rest : List Char)
    (h : ps.isEmpty = true) : Expr.propertiesOnto ps rest = rest := by
  rw [List.isEmpty_iff.mp h, Expr.propertiesOnto]

/-- An empty list is not written like one that is not empty. -/
theorem Expr.listOnto_ne {e : Expr} {es : List Expr} {c : Char} {r r' : List Char}
    (he : e.isPlain = true) (hc : closes c = true) : c :: r ≠ Expr.listOnto (e :: es) r' := by
  intro heq
  obtain ⟨d, t, ht, hd⟩ := Expr.starts he (behindPart es.isEmpty (Expr.listOnto es r'))
  rw [Expr.listOnto_cons, ht] at heq
  cases heq
  rw [(not_of_closes hc).2.1] at hd
  cases hd

/-! ## Keys and properties -/

def Key.shape : Key → Shape
  | .identifier _ => .word
  | .string _ => .string
  | .computed _ => .array

theorem Key.starts (k : Key) (hplain : k.isPlain = true) (rest : List Char) :
    ∃ c t, k.onto rest = c :: t ∧ Shape.of c = k.shape ∧ opens c = true := by
  cases k with
  | identifier n =>
      rw [Key.isPlain] at hplain
      rw [Key.onto]
      exact word_starts (isProperName_spec hplain).1 (isProperName_spec hplain).2.1 rest
  | string s => exact ⟨'"', _, by rw [Key.onto, writtenString]; rfl, rfl, rfl⟩
  | computed e => exact ⟨'[', _, by rw [Key.onto], rfl, rfl⟩

theorem Key.shape_eq {k k' : Key} {r s : List Char} (hk : k.isPlain = true)
    (hk' : k'.isPlain = true) (heq : k.onto r = k'.onto s) : k.shape = k'.shape := by
  obtain ⟨c, t, ht, hc, _⟩ := k.starts hk r
  obtain ⟨d, u, hu, hd, _⟩ := k'.starts hk' s
  rw [ht, hu] at heq
  cases heq
  rw [← hc, hd]

theorem Expr.propertiesOnto_ne {k : Key} {e : Expr} {ps : List Property} {r r' : List Char}
    (hk : k.isPlain = true) : ' ' :: r ≠ Expr.propertiesOnto (.mk k e :: ps) r' := by
  intro heq
  rw [Expr.propertiesOnto_cons] at heq
  obtain ⟨d, t, ht, _, hd⟩ := k.starts hk
    (':' :: ' ' :: e.onto (behindPart ps.isEmpty (Expr.propertiesOnto ps r')))
  rw [ht] at heq
  cases heq
  cases hd

/-- The braces around no properties are written without blanks. -/
theorem Property.braced_cancel {ps ps' : List Property} {r r' : List Char}
    (heq : Property.bracedOnto ps r = Property.bracedOnto ps' r') :
    Expr.propertiesOnto ps (' ' :: '\x7d' :: r)
      = Expr.propertiesOnto ps' (' ' :: '\x7d' :: r') := by
  cases ps with
  | nil =>
      cases ps' with
      | nil =>
          simp only [Property.bracedOnto, List.cons.injEq, true_and] at heq
          rw [heq]
      | cons p' ps' => simp [Property.bracedOnto] at heq
  | cons p ps =>
      cases ps' with
      | nil => simp [Property.bracedOnto] at heq
      | cons p' ps' => simpa [Property.bracedOnto] using heq

/-! ## All plain expressions -/

mutual

theorem Expr.cancels : (e : Expr) → e.isPlain = true → e.Cancels
  | .string s, _ => Expr.cancels_string s
  | .number _, he => Expr.cancels_word he rfl rfl rfl
  | .boolean true, he => Expr.cancels_word he rfl rfl rfl
  | .boolean false, he => Expr.cancels_word he rfl rfl rfl
  | .null, he => Expr.cancels_word he rfl rfl rfl
  | .identifier _, he => Expr.cancels_word he rfl rfl rfl
  | .array es, he => by
      refine .of_head he rfl fun {h r s} hh hhead hshape hr hs heq => ?_
      cases h with
      | array es' =>
          rw [Expr.isPlain] at he hh
          rw [Expr.onto, Expr.onto, List.cons.injEq] at heq
          obtain ⟨rfl, rfl⟩ := Expr.cancels_list es he hh rfl heq.2
          exact ⟨rfl, rfl⟩
      | _ => cases hshape
  | .object ps, he => by
      refine .of_head he rfl fun {h r s} hh hhead hshape hr hs heq => ?_
      cases h with
      | object ps' =>
          rw [Expr.isPlain] at he hh
          rw [Expr.object_onto, Expr.object_onto, List.cons.injEq] at heq
          obtain ⟨rfl, hclose⟩ :=
            Property.cancels_list ps he hh (Property.braced_cancel heq.2)
          exact ⟨rfl, (List.cons.inj hclose).2⟩
      | _ => cases hshape
  | .call f es, he => by
      intro h xs r r' hh hhead hxs hr hr' heq
      rw [Expr.isPlain, Bool.and_eq_true] at he
      rw [Expr.onto] at heq
      obtain ⟨ys, zs, rfl, rfl, htail⟩ :=
        Expr.cancels f he.1 h xs _ r' hh hhead hxs (.cons (by decide)) hr' heq
      rw [List.all_append, Bool.and_eq_true] at hxs
      cases zs with
      | nil => exact absurd (hr' _ _ htail.symm) (by decide)
      | cons z zs =>
          cases z with
          | call es' =>
              rw [List.all_cons, Bool.and_eq_true] at hxs
              simp only [Suffix.allOnto, List.foldr_cons, Suffix.onto, List.cons.injEq] at htail
              obtain ⟨rfl, rfl⟩ := Expr.cancels_list es he.2 hxs.2.1 rfl htail.2
              exact ⟨ys ++ [.call es], zs, by simp, by simp [Suffix.apply], rfl⟩
          | access p =>
              simp [Suffix.allOnto, Suffix.onto] at htail
  | .access e p, he => by
      intro h xs r r' hh hhead hxs hr hr' heq
      rw [Expr.isPlain, Bool.and_eq_true] at he
      rw [Expr.onto] at heq
      obtain ⟨ys, zs, rfl, rfl, htail⟩ :=
        Expr.cancels e he.1 h xs _ r' hh hhead hxs (.cons (by decide)) hr' heq
      rw [List.all_append, Bool.and_eq_true] at hxs
      cases zs with
      | nil => exact absurd (hr' _ _ htail.symm) (by decide)
      | cons z zs =>
          cases z with
          | call es =>
              simp [Suffix.allOnto, Suffix.onto] at htail
          | access p' =>
              rw [List.all_cons, Bool.and_eq_true] at hxs
              simp only [Suffix.allOnto, List.foldr_cons, Suffix.onto, List.cons.injEq] at htail
              obtain ⟨hp, rfl⟩ := Stops.cancel (isProperName_spec he.2).2.1
                (isProperName_spec hxs.2.1).2.1 hr (Suffix.stops_allOnto zs hr'.name) htail.2
              obtain rfl := String.toList_inj.mp hp
              exact ⟨ys ++ [.access p], zs, by simp, by simp [Suffix.apply], rfl⟩
  | .template _, he | .function _ _ _, he | .arrow _ _, he | .raw _, he => by
      simp [Expr.isPlain] at he

/-- Two lists of expressions that are written alike up to a closing bracket are the same. -/
theorem Expr.cancels_list : (es : List Expr) → {es' : List Expr} → {c : Char} →
    {r r' : List Char} → Expr.arePlain es = true → Expr.arePlain es' = true → closes c = true →
    Expr.listOnto es (c :: r) = Expr.listOnto es' (c :: r') → es = es' ∧ r = r'
  | [], [], c, r, r', _, _, _, heq => by
      simpa [Expr.listOnto] using heq
  | [], e' :: es', c, r, r', _, hes', hc, heq => by
      rw [Expr.arePlain, Bool.and_eq_true] at hes'
      exact absurd heq (Expr.listOnto_ne hes'.1 hc)
  | e :: es, [], c, r, r', hes, _, hc, heq => by
      rw [Expr.arePlain, Bool.and_eq_true] at hes
      exact absurd heq.symm (Expr.listOnto_ne hes.1 hc)
  | e :: es, e' :: es', c, r, r', hes, hes', hc, heq => by
      rw [Expr.arePlain, Bool.and_eq_true] at hes hes'
      rw [Expr.listOnto_cons, Expr.listOnto_cons] at heq
      have hlast := Expr.listOnto_empty es (c :: r)
      have hlast' := Expr.listOnto_empty es' (c :: r')
      obtain ⟨rfl, hbehind⟩ := (Expr.cancels e hes.1).closed hes'.1 (stops_behindPart hc hlast)
        (stops_behindPart hc hlast') heq
      obtain ⟨rfl, rfl⟩ := Expr.cancels_list es hes.2 hes'.2 hc
        (behindPart_cancel hc hlast hlast' hbehind)
      exact ⟨rfl, rfl⟩

theorem Property.cancels_list : (ps : List Property) → {ps' : List Property} →
    {r r' : List Char} → Property.arePlain ps = true → Property.arePlain ps' = true →
    Expr.propertiesOnto ps (' ' :: r) = Expr.propertiesOnto ps' (' ' :: r') → ps = ps' ∧ r = r'
  | [], [], r, r', _, _, heq => by
      simpa [Expr.propertiesOnto] using heq
  | [], .mk k' e' :: ps', r, r', _, hps', heq => by
      simp only [Property.arePlain, Bool.and_eq_true] at hps'
      exact absurd heq (Expr.propertiesOnto_ne hps'.1.1)
  | .mk k e :: ps, [], r, r', hps, _, heq => by
      simp only [Property.arePlain, Bool.and_eq_true] at hps
      exact absurd heq.symm (Expr.propertiesOnto_ne hps.1.1)
  | .mk k e :: ps, .mk k' e' :: ps', r, r', hps, hps', heq => by
      simp only [Property.arePlain, Bool.and_eq_true] at hps hps'
      rw [Expr.propertiesOnto_cons, Expr.propertiesOnto_cons] at heq
      obtain ⟨rfl, hvalue⟩ := Key.cancels k hps.1.1 hps'.1.1 heq
      have hlast := Expr.propertiesOnto_empty ps (' ' :: r)
      have hlast' := Expr.propertiesOnto_empty ps' (' ' :: r')
      obtain ⟨rfl, hbehind⟩ := (Expr.cancels e hps.1.2).closed hps'.1.2
        (stops_behindPart rfl hlast) (stops_behindPart rfl hlast') (List.cons.inj hvalue).2
      obtain ⟨rfl, rfl⟩ := Property.cancels_list ps hps.2 hps'.2
        (behindPart_cancel rfl hlast hlast' hbehind)
      exact ⟨rfl, rfl⟩

theorem Key.cancels : (k : Key) → {k' : Key} → {r r' : List Char} → k.isPlain = true →
    k'.isPlain = true → k.onto (':' :: r) = k'.onto (':' :: r') → k = k' ∧ r = r'
  | .identifier n, k', r, r', hk, hk', heq => by
      have hshape := Key.shape_eq hk hk' heq
      cases k' with
      | identifier n' =>
          rw [Key.isPlain] at hk hk'
          rw [Key.onto, Key.onto] at heq
          obtain ⟨hn, hrest⟩ := Stops.cancel (isProperName_spec hk).2.1 (isProperName_spec hk').2.1
            (.cons (by decide)) (.cons (by decide)) heq
          exact ⟨by rw [String.toList_inj.mp hn], (List.cons.inj hrest).2⟩
      | _ => cases hshape
  | .string s, k', r, r', hk, hk', heq => by
      have hshape := Key.shape_eq hk hk' heq
      cases k' with
      | string s' =>
          rw [Key.onto, Key.onto] at heq
          obtain ⟨rfl, hrest⟩ := writtenString_cancel heq
          exact ⟨rfl, (List.cons.inj hrest).2⟩
      | _ => cases hshape
  | .computed e, k', r, r', hk, hk', heq => by
      have hshape := Key.shape_eq hk hk' heq
      cases k' with
      | computed e' =>
          rw [Key.isPlain] at hk hk'
          rw [Key.onto, Key.onto, List.cons.injEq] at heq
          obtain ⟨rfl, hrest⟩ := (Expr.cancels e hk).closed hk' (.cons (by decide))
            (.cons (by decide)) heq.2
          exact ⟨rfl, by simpa using hrest⟩
      | _ => cases hshape

end

end Adorn
