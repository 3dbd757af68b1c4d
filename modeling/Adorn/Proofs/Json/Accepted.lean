import Adorn.Proofs.Json.Trees

/-!
# What accepted texts spell

A well-formed text need not be accepted: half a surrogate pair spells no
character, and a numeral may be beyond every range. If it is accepted,
though, the reader has taken all of it and nothing behind it. A string
that is accepted also spells what has been read (`string_quotable`), so
no text is read as two strings.

The loops are followed by `Reader.loop_invariant`. `SpelledSoFar` and
`ItemsAhead` are the invariants, of the state of a loop and the text that
is still to come.
-/

namespace Adorn.Json

/-! ## Strings -/

/-- A numeric escape that is accepted is one character, and takes a second escape for it only if
there is one. -/
theorem numericEscape_quotable {a b c d x : Char} {n : Nat} {t rest u : List Char}
    (hn : Text.hexValue4? a b c d = some n) (ht : QuotableText t)
    (h : numericEscape (a :: b :: c :: d :: (t ++ '"' :: rest)) = .ok (x, u)) :
    ∃ p t', '\\' :: 'u' :: a :: b :: c :: d :: t = p ++ t' ∧ CharText x p ∧ QuotableText t'
      ∧ u = t' ++ '"' :: rest := by
  rw [numericEscape, Reader.bind_ok (hexUnit_cons hn _)] at h
  by_cases htrailing : isTrailing n = true
  · rw [if_pos htrailing] at h
    cases h
  rw [if_neg htrailing] at h
  by_cases hleading : isLeading n = true
  · rw [if_pos hleading] at h
    -- The other half has to follow, and of all that may follow only a numeric escape is one.
    cases ht with
    | nil => cases h
    | @plain e t _ hslash _ _ =>
        rw [List.cons_append, Reader.bind_ok (next_cons _ e _)] at h
        simp only [ne_eq, hslash, not_false_eq_true, if_true] at h
        cases h
    | @short e f t hshort _ =>
        have hne : f ≠ 'u' := by
          rintro rfl
          cases hshort
        rw [List.cons_append, List.cons_append, Reader.bind_ok (next_cons _ '\\' _)] at h
        simp only [ne_eq, not_true_eq_false, if_false] at h
        rw [Reader.bind_ok (next_cons _ f _)] at h
        simp only [hne, not_false_eq_true, if_true] at h
        cases h
    | @numeric a' b' c' d' m t hm ht =>
        simp only [List.cons_append] at h
        rw [Reader.bind_ok (next_cons _ '\\' _)] at h
        simp only [ne_eq, not_true_eq_false, if_false] at h
        rw [Reader.bind_ok (next_cons _ 'u' _)] at h
        simp only [not_true_eq_false, if_false] at h
        rw [Reader.bind_ok (hexUnit_cons hm _)] at h
        by_cases hpaired : isTrailing m = true
        · rw [if_pos hpaired, Reader.pure_apply] at h
          obtain ⟨rfl, rfl⟩ := Prod.mk.inj (Except.ok.inj h)
          exact ⟨_, t, rfl, .pair hn hleading hm hpaired, ht, rfl⟩
        · rw [if_neg hpaired] at h
          cases h
  · rw [if_neg hleading] at h
    cases h
    exact ⟨_, t, rfl, .numeric hn (Bool.eq_false_iff.mpr hleading)
      (Bool.eq_false_iff.mpr htrailing), ht, rfl⟩

theorem stringStep_slash_eq_ok {text : String} {s u : List Char} {y : String ⊕ String}
    (h : stringStep text ('\\' :: s) = .ok (y, u)) :
    ∃ x, escape s = .ok (x, u) ∧ y = .inl (text.push x) := by
  have hread : (do return Sum.inl (text.push (← escape)) : Reader (String ⊕ String)) s
      = .ok (y, u) := h
  obtain ⟨x, v, hx, hv⟩ := Reader.bind_eq_ok hread
  cases hv
  exact ⟨x, hx, rfl⟩

/-- A round that is accepted takes the closing quote or the spelling of one character. -/
theorem stringStep_quotable {text : String} {t rest u : List Char} {y : String ⊕ String}
    (ht : QuotableText t) (h : stringStep text (t ++ '"' :: rest) = .ok (y, u)) :
    (t = [] ∧ y = .inr text ∧ u = rest) ∨
      ∃ x p t', t = p ++ t' ∧ CharText x p ∧ QuotableText t' ∧ y = .inl (text.push x)
        ∧ u = t' ++ '"' :: rest := by
  cases ht with
  | nil =>
      cases h
      exact Or.inl ⟨rfl, rfl, rfl⟩
  | @plain c t hquote hslash hcontrol ht =>
      have hc : CharText c [c] := .plain hquote hslash hcontrol
      have hstep : stringStep text (c :: (t ++ '"' :: rest)) = _ := stringStep_charText hc text _
      rw [List.cons_append, hstep] at h
      cases h
      exact Or.inr ⟨c, [c], t, rfl, hc, ht, rfl, rfl⟩
  | @short c d t hd ht =>
      have hc : CharText c ['\\', d] := .short hd
      have hstep : stringStep text ('\\' :: d :: (t ++ '"' :: rest)) = _ :=
        stringStep_charText hc text _
      rw [List.cons_append, List.cons_append, hstep] at h
      cases h
      exact Or.inr ⟨c, _, t, rfl, hc, ht, rfl, rfl⟩
  | @numeric a b c d n t hn ht =>
      simp only [List.cons_append] at h
      obtain ⟨x, hx, rfl⟩ := stringStep_slash_eq_ok h
      obtain ⟨p, t', hp, hchar, ht', hu⟩ := numericEscape_quotable hn ht hx
      exact Or.inr ⟨x, p, t', hp, hchar, ht', rfl, hu⟩

theorem CharsText.append {cs cs' t t' : List Char} (h : CharsText cs t) (h' : CharsText cs' t') :
    CharsText (cs ++ cs') (t ++ t') := by
  induction h with
  | nil => exact h'
  | cons hc _ ih =>
      rw [List.append_assoc]
      exact .cons hc ih

/-- While the string `t` is read: the characters read so far spell what has been taken of it. -/
def SpelledSoFar (t rest : List Char) (text : String) (s : List Char) : Prop :=
  ∃ p q, t = p ++ q ∧ CharsText text.toList p ∧ QuotableText q ∧ s = q ++ '"' :: rest

theorem SpelledSoFar.round {t rest s u : List Char} {text : String} {y : String ⊕ String}
    (hs : SpelledSoFar t rest text s) (h : stringStep text s = .ok (y, u)) :
    Sum.elim (SpelledSoFar t rest · u) (fun text => CharsText text.toList t ∧ u = rest) y := by
  obtain ⟨p, q, rfl, hp, hq, rfl⟩ := hs
  rcases stringStep_quotable hq h with ⟨rfl, rfl, rfl⟩ | ⟨x, p', q', rfl, hx, hq', rfl, rfl⟩
  · rw [List.append_nil]
    exact ⟨hp, rfl⟩
  · have hx' : CharsText [x] p' := by
      simpa using CharsText.cons hx .nil
    refine ⟨p ++ p', q', by rw [List.append_assoc], ?_, hq', rfl⟩
    rw [String.toList_push]
    exact hp.append hx'

/-- A string that is accepted is spelled by all that stands before its closing quote. -/
theorem string_quotable {t rest r : List Char} {s : String} (ht : QuotableText t)
    (h : string (t ++ '"' :: rest) = .ok (s, r)) : CharsText s.toList t ∧ r = rest := by
  have hstart : SpelledSoFar t rest "" (t ++ '"' :: rest) := ⟨[], t, rfl, .nil, ht, rfl⟩
  exact Reader.loop_invariant (P := fun s r => CharsText s.toList t ∧ r = rest)
    (fun _ _ _ _ hs hstep => hs.round hstep) hstart h

theorem QuotedText.quote {t : List Char} (h : QuotedText t) : ∃ u, t = '"' :: u := by
  obtain ⟨_⟩ := h
  exact ⟨_, rfl⟩

theorem key_quoted {l rest r : List Char} {k : String} (hl : QuotedText l)
    (h : key (l ++ rest) = .ok (k, r)) : StringText k l ∧ r = rest := by
  obtain ⟨ht⟩ := hl
  rw [key, List.cons_append, List.append_assoc, Reader.bind_ok (advance_cons _ _)] at h
  obtain ⟨hk, hr⟩ := string_quotable ht h
  exact ⟨.mk hk, hr⟩

/-- A text spells one string at most. -/
theorem StringText.unique {k k' : String} {l : List Char} (h : StringText k l)
    (h' : StringText k' l) : k = k' := by
  have hread := key_append h []
  rw [key_append h' []] at hread
  cases hread
  rfl

/-! ## Forms -/

/-- What starts with no bracket is accepted as a scalar only. -/
theorem form_eq_scalar {c : Char} {s r : List Char} {f : Form} (hspace : isSpace c = false)
    (hlist : c ≠ '[') (hmap : c ≠ '\x7b') (h : form (c :: s) = .ok (f, r)) :
    ∃ x, f = .scalar x ∧ scalar c (c :: s) = .ok (x, r) := by
  rw [form, Reader.bind_ok (peek_cons hspace s)] at h
  simp only [if_neg hlist, if_neg hmap] at h
  obtain ⟨x, u, hx, hu⟩ := Reader.bind_eq_ok h
  cases hu
  exact ⟨x, rfl, hx⟩

theorem form_null {rest : List Char} (hrest : Delimited rest) :
    form (Piece.null.text ++ rest) = .ok (.scalar .null, rest) :=
  form_scalar .null hrest

theorem form_scalarText {x : Scalar} {t rest r : List Char} {f : Form} (ht : ScalarText x t)
    (hrest : Delimited rest) (h : form (t ++ rest) = .ok (f, r)) :
    ∃ x, f = .scalar x ∧ r = rest := by
  rw [form_scalar ht hrest] at h
  cases h
  exact ⟨x, rfl, rfl⟩

/-- A numeral that is accepted has a value. -/
theorem value_of_form {n : Numeral} {t rest r : List Char} {f : Form} (ht : NumeralText n t)
    (hrest : Delimited rest) (h : form (t ++ rest) = .ok (f, r)) : ∃ z, n.value = .ok z := by
  cases hvalue : n.value with
  | ok z => exact ⟨z, rfl⟩
  | error e =>
      have hread : number (t ++ rest) = .error e := by
        rw [number, Reader.bind_ok (Numeral.read_append ht hrest _), hvalue]
        rfl
      obtain ⟨c, u, rfl, hc⟩ := ht.head
      obtain ⟨c', u', heq, hspace, -⟩ := ht.begins
      cases heq
      obtain ⟨hn, hyes, hno, hquote, hlist, hmap⟩ := numeralHead_ne hc
      rw [List.cons_append] at h hread
      obtain ⟨x, rfl, hx⟩ := form_eq_scalar hspace hlist hmap h
      rw [scalar, if_neg hn, if_neg hyes, if_neg hno, if_neg hquote, if_pos (by simpa using hc),
        Reader.bind_error hread] at hx
      cases hx

theorem form_quoted {t rest r : List Char} {f : Form} (ht : QuotedText t)
    (h : form (t ++ rest) = .ok (f, r)) : ∃ x, f = .scalar x ∧ r = rest := by
  obtain ⟨ht⟩ := ht
  rw [List.cons_append, List.append_assoc] at h
  obtain ⟨x, rfl, hx⟩ := form_eq_scalar (by decide) (by decide) (by decide) h
  have hquote : scalar '"' = (do advance; return Scalar.string (← string)) := rfl
  rw [hquote, Reader.bind_ok (advance_cons _ _)] at hx
  obtain ⟨s, u, hs, hu⟩ := Reader.bind_eq_ok hx
  cases hu
  exact ⟨_, rfl, (string_quotable ht hs).2⟩

/-- The form of a well-formed text that is accepted. A scalar has been taken to its end; of an array
or an object nothing has been taken. -/
theorem form_wellFormed {p b rest r : List Char} {f : Form} (hb : Blanks b) (hp : WellFormed p)
    (hrest : Delimited rest) (h : form (b ++ (p ++ rest)) = .ok (f, r)) :
    (∃ x, f = .scalar x ∧ r = rest)
      ∨ (f = .sequence ∧ r = p ++ rest ∧ ∃ ps inner, p = '[' :: inner ∧ ItemsText true ps inner
          ∧ ∀ q ∈ ps, WellFormed q)
      ∨ f = .map := by
  rw [form_blanks hb] at h
  cases hp with
  | null => exact Or.inl (form_scalarText .null hrest h)
  | yes => exact Or.inl (form_scalarText .yes hrest h)
  | no => exact Or.inl (form_scalarText .no hrest h)
  | number ht =>
      obtain ⟨z, hz⟩ := value_of_form ht hrest h
      exact Or.inl (form_scalarText (.number ht hz) hrest h)
  | string ht => exact Or.inl (form_quoted ht h)
  | @array ps inner hi hps =>
      cases h
      exact Or.inr (Or.inl ⟨rfl, rfl, ps, inner, rfl, hi, hps⟩)
  | object _ _ _ =>
      cases h
      exact Or.inr (Or.inr rfl)

/-! ## Arrays -/

/-- While an array is read: what is ahead are its other items, all well-formed. -/
def ItemsAhead (rest : List Char) (first : Bool) (s : List Char) : Prop :=
  ∃ ps t, ItemsText first ps t ∧ (∀ p ∈ ps, WellFormed p) ∧ s = t ++ rest

section

variable {α : Type} {item : Reader α}
variable (hitem : ∀ {p rest x r}, WellFormed p → Delimited rest → item (p ++ rest) = .ok (x, r) →
  r = rest)

include hitem

theorem ItemsAhead.round {rest s t : List Char} {state : Bool × Array α}
    {y : (Bool × Array α) ⊕ List α} (hs : ItemsAhead rest state.1 s)
    (h : itemStep item state s = .ok (y, t)) :
    Sum.elim (fun state => ItemsAhead rest state.1 t) (fun _ => t = rest) y := by
  obtain ⟨first, acc⟩ := state
  obtain ⟨ps, u, hu, hps, rfl⟩ := hs
  cases ps with
  | nil =>
      cases hu with
      | close hb =>
          rw [List.append_assoc, List.singleton_append, itemStep_close hb] at h
          cases h
          rfl
  | cons p ps =>
      obtain ⟨hp, hps'⟩ := List.forall_mem_cons.mp hps
      obtain ⟨v, hv, hmore, -⟩ := hu.next_item hp.begins rest
      rw [itemStep, Reader.bind_ok hmore, if_pos rfl] at h
      obtain ⟨x, w, hx, hw⟩ := Reader.bind_eq_ok h
      cases hw
      exact ⟨ps, v, hv, hps', hitem hp (hv.delimited rest) hx⟩

/-- If the reader of the items takes all of each item it accepts, then all of an array is taken. -/
theorem items_wellFormed {ps : List (List Char)} {inner rest r : List Char} {xs : List α}
    (hi : ItemsText true ps inner) (hps : ∀ p ∈ ps, WellFormed p)
    (h : items item true (inner ++ rest) = .ok (xs, r)) : r = rest := by
  have hstart : ItemsAhead rest true (inner ++ rest) := ⟨ps, inner, hi, hps, rfl⟩
  exact Reader.loop_invariant (I := fun state s => ItemsAhead rest state.1 s)
    (P := fun _ r => r = rest) (fun _ _ _ _ hs hstep => hs.round hitem hstep) hstart h

end

end Adorn.Json
