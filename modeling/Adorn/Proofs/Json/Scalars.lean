import Adorn.Proofs.Json.Grammar
import Adorn.Proofs.Json.Run

/-!
# Reading scalars

A reader that meets a spelling takes exactly the spelling and gives what
it spells. For strings the step is one character, however it is spelled
(`stringStep_charText`); a numeral is read part by part, and each part
ends where the next one starts. `form_scalar` puts the scalars together.
-/

namespace Adorn.Json

open Text (isDigit)

/-! ## Blanks -/

theorem dropWhile_blanks {b s : List Char} (hb : Blanks b) :
    (b ++ s).dropWhile isSpace = s.dropWhile isSpace := by
  induction b with
  | nil => rfl
  | cons c b ih =>
      have hc : isSpace c = true := hb c (List.mem_cons_self ..)
      rw [List.cons_append, List.dropWhile_cons_of_pos hc]
      exact ih fun d hd => hb d (List.mem_cons_of_mem _ hd)

theorem peek_blanks {b : List Char} (hb : Blanks b) (s : List Char) : peek (b ++ s) = peek s := by
  simp only [peek, dropWhile_blanks hb]

theorem peek_cons {c : Char} (hc : isSpace c = false) (s : List Char) :
    peek (c :: s) = .ok (some c, c :: s) := by
  simp [peek, hc]

theorem form_blanks {b : List Char} (hb : Blanks b) (s : List Char) : form (b ++ s) = form s := by
  simp only [form, bind, StateT.bind, peek_blanks hb]

@[simp] theorem form_sequence (s : List Char) : form ('[' :: s) = .ok (.sequence, '[' :: s) := rfl

@[simp] theorem form_map (s : List Char) : form ('\x7b' :: s) = .ok (.map, '\x7b' :: s) := rfl

@[simp] theorem advance_cons (c : Char) (s : List Char) : advance (c :: s) = .ok ((), s) := rfl

@[simp] theorem look_cons (c : Char) (s : List Char) : look (c :: s) = .ok (some c, c :: s) := rfl

@[simp] theorem next_cons (e : Error) (c : Char) (s : List Char) :
    next e (c :: s) = .ok (c, s) := rfl

/-! ## Words -/

theorem word_append : (cs rest : List Char) → word cs (cs ++ rest) = .ok ((), rest)
  | [], _ => rfl
  | c :: cs, rest => by
      rw [word, List.cons_append, Reader.bind_ok (next_cons _ c _), if_pos rfl]
      exact word_append cs rest

/-! ## Strings -/

theorem hexUnit_cons {a b c d : Char} {n : Nat} (h : Text.hexValue4? a b c d = some n)
    (rest : List Char) : hexUnit (a :: b :: c :: d :: rest) = .ok (n, rest) := by
  simp only [hexUnit, h]

theorem escape_short {c d : Char} (h : shortEscape? d = some c) (rest : List Char) :
    escape (d :: rest) = .ok (c, rest) := by
  rw [escape, Reader.bind_ok (next_cons _ d rest), h]
  rfl

/-- An escape that starts with `u` is a numeric one. -/
theorem numericEscape_single {a b c d : Char} {n : Nat} (hn : Text.hexValue4? a b c d = some n)
    (hleading : isLeading n = false) (htrailing : isTrailing n = false) (rest : List Char) :
    numericEscape (a :: b :: c :: d :: rest) = .ok (Char.ofNat n, rest) := by
  rw [numericEscape, Reader.bind_ok (hexUnit_cons hn rest)]
  simp only [htrailing, hleading, Bool.false_eq_true, if_false]
  rfl

theorem numericEscape_pair {a b c d a' b' c' d' : Char} {n m : Nat}
    (hn : Text.hexValue4? a b c d = some n) (hleading : isLeading n = true)
    (hm : Text.hexValue4? a' b' c' d' = some m) (htrailing : isTrailing m = true)
    (rest : List Char) :
    numericEscape (a :: b :: c :: d :: '\\' :: 'u' :: a' :: b' :: c' :: d' :: rest)
      = .ok (paired n m, rest) := by
  have hnot : isTrailing n = false := by
    simp only [isLeading, isTrailing, Bool.and_eq_true, decide_eq_true_eq, Bool.and_eq_false_iff,
      decide_eq_false_iff_not] at hleading ⊢
    omega
  rw [numericEscape, Reader.bind_ok (hexUnit_cons hn _)]
  simp only [hnot, hleading, Bool.false_eq_true, if_false, if_true]
  rw [Reader.bind_ok (next_cons _ '\\' _)]
  simp only [ne_eq, not_true_eq_false, if_false]
  rw [Reader.bind_ok (next_cons _ 'u' _)]
  simp only [not_true_eq_false, if_false]
  rw [Reader.bind_ok (hexUnit_cons hm rest), if_pos htrailing]
  rfl

theorem stringStep_slash {s rest : List Char} {c : Char} (text : String)
    (h : escape s = .ok (c, rest)) :
    stringStep text ('\\' :: s) = .ok (.inl (text.push c), rest) := by
  rw [stringStep, Reader.bind_ok (next_cons _ '\\' s)]
  exact Reader.bind_ok h

/-- One round of reading a string takes one character, however it is spelled. -/
theorem stringStep_charText {c : Char} {p : List Char} (h : CharText c p) (text : String)
    (rest : List Char) : stringStep text (p ++ rest) = .ok (.inl (text.push c), rest) := by
  cases h with
  | plain hquote hslash hcontrol =>
      rw [List.cons_append, stringStep, Reader.bind_ok (next_cons _ c _), if_neg hquote,
        if_neg hslash, if_neg hcontrol]
      rfl
  | short h => exact stringStep_slash text (escape_short h rest)
  | numeric hn hleading htrailing =>
      exact stringStep_slash text (numericEscape_single hn hleading htrailing rest)
  | pair hn hleading hm htrailing =>
      exact stringStep_slash text (numericEscape_pair hn hleading hm htrailing rest)

theorem CharText.length_pos {c : Char} {p : List Char} (h : CharText c p) : 0 < p.length := by
  cases h <;> exact Nat.succ_pos _

theorem CharsText.ends {cs t : List Char} (h : CharsText cs t) (text : String)
    (rest : List Char) :
    Reader.Ends stringStep text (t ++ '"' :: rest)
      (.ok (String.ofList (text.toList ++ cs), rest)) := by
  induction h generalizing text with
  | nil =>
      rw [List.append_nil, String.ofList_toList]
      exact .done rfl
  | @cons c cs p t hc _ ih =>
      have hpos := hc.length_pos
      rw [List.append_assoc]
      refine .next (stringStep_charText hc text _) (by simp; omega) ?_
      have hend := ih (text.push c)
      rwa [String.toList_push, List.append_assoc] at hend

theorem string_charsText {s : String} {t : List Char} (h : CharsText s.toList t)
    (rest : List Char) : string (t ++ '"' :: rest) = .ok (s, rest) := by
  have hend := h.ends "" rest
  rw [show ("" : String).toList ++ s.toList = s.toList by simp, String.ofList_toList] at hend
  exact Reader.loop_eq_of_ends hend

/-! ## Numerals -/

/-- A text that does not go on with a digit. -/
def NoDigit (rest : List Char) : Prop :=
  ∀ c t, rest = c :: t → isDigit c = false

theorem Delimited.noDigit {rest : List Char} (h : Delimited rest) : NoDigit rest :=
  fun c t heq => (h c t heq).1

theorem FractionText.noDigit {f : Option (List Char)} {t rest : List Char}
    (h : FractionText f t) (hrest : NoDigit rest) : NoDigit (t ++ rest) := by
  cases h with
  | absent => exact hrest
  | present hds =>
      intro c u heq
      cases heq
      decide

theorem ExponentText.noDigit {x : Option (Bool × List Char)} {t rest : List Char}
    (h : ExponentText x t) (hrest : NoDigit rest) : NoDigit (t ++ rest) := by
  cases h with
  | absent => exact hrest
  | unsigned hc _ | plus hc _ | minus hc _ =>
      intro c u heq
      cases heq
      rcases hc with rfl | rfl <;> decide

theorem ExponentText.noPoint {x : Option (Bool × List Char)} {t rest : List Char}
    (h : ExponentText x t) (hrest : Delimited rest) (u : List Char) : t ++ rest ≠ '.' :: u := by
  intro hu
  cases h with
  | absent => exact (hrest _ _ hu).2.1 rfl
  | unsigned hc _ | plus hc _ | minus hc _ =>
      cases hu
      rcases hc with hc | hc <;> exact absurd hc (by decide)

namespace Numeral

theorem digits_append {ds rest : List Char} (hds : Digits ds) (hrest : NoDigit rest)
    (short : Error) : digits short (ds ++ rest) = .ok (ds, rest) := by
  obtain ⟨hne, hall⟩ := hds
  have htake : (ds ++ rest).takeWhile isDigit = ds := by
    rw [List.takeWhile_append_of_pos hall]
    cases rest with
    | nil => simp
    | cons c t => simp [hrest c t rfl]
  have hdrop : (ds ++ rest).dropWhile isDigit = rest := by
    rw [List.dropWhile_append_of_pos hall]
    cases rest with
    | nil => rfl
    | cons c t => simp [hrest c t rfl]
  cases hcases : ds with
  | nil => exact absurd hcases hne
  | cons d ds' =>
      have hd : isDigit d = true := hall d (by rw [hcases]; exact List.mem_cons_self ..)
      rw [hcases] at htake hdrop
      simp only [List.cons_append] at htake hdrop ⊢
      simp only [digits, hd, if_true, htake, hdrop]

theorem digits_head {ds : List Char} (hds : Digits ds) :
    ∃ d ds', ds = d :: ds' ∧ isDigit d = true := by
  obtain ⟨hne, hall⟩ := hds
  cases ds with
  | nil => exact absurd rfl hne
  | cons d ds' => exact ⟨d, ds', rfl, hall d (List.mem_cons_self ..)⟩

theorem sign_append (negative : Bool) {ds : List Char} (hds : Digits ds) (rest : List Char) :
    sign (signText negative ++ (ds ++ rest)) = .ok (negative, ds ++ rest) := by
  cases negative with
  | true => rfl
  | false =>
      obtain ⟨d, ds', rfl, hd⟩ := digits_head hds
      have hminus : d ≠ '-' := by
        rintro rfl
        exact absurd hd (by decide)
      simp [sign, signText, look, bind, StateT.bind, Except.bind, hminus]

theorem wholePart_append {ds rest : List Char} (hds : Digits ds)
    (hzero : ∀ d ds', ds ≠ '0' :: d :: ds') (hrest : NoDigit rest) (short : Error) :
    wholePart short (ds ++ rest) = .ok (ds, rest) := by
  rw [wholePart, Reader.bind_ok (digits_append hds hrest short)]
  split
  · exact absurd rfl (hzero _ _)
  · rfl

theorem fractionPart_append {f : Option (List Char)} {t rest : List Char} (h : FractionText f t)
    (hrest : NoDigit rest) (hpoint : ∀ u, t ++ rest = '.' :: u → f ≠ none) (short : Error) :
    fractionPart short (t ++ rest) = .ok (f, rest) := by
  cases h with
  | absent =>
      have hne : rest.head? ≠ some '.' := by
        intro heq
        obtain ⟨u, hu⟩ := List.head?_eq_some_iff.mp heq
        exact hpoint u hu rfl
      have hlook : look rest = .ok (rest.head?, rest) := rfl
      rw [fractionPart, List.nil_append, Reader.bind_ok hlook, if_neg hne]
      rfl
  | present hds =>
      rw [fractionPart, List.cons_append, Reader.bind_ok (look_cons '.' _), if_pos rfl,
        Reader.bind_ok (advance_cons '.' _), Reader.bind_ok (digits_append hds hrest short)]
      rfl

theorem exponentSign_digits {ds : List Char} (hds : Digits ds) (rest : List Char) :
    exponentSign (ds ++ rest) = .ok (false, ds ++ rest) := by
  obtain ⟨d, ds', rfl, hd⟩ := digits_head hds
  have hminus : d ≠ '-' := by
    rintro rfl
    exact absurd hd (by decide)
  have hplus : d ≠ '+' := by
    rintro rfl
    exact absurd hd (by decide)
  simp [exponentSign, look, bind, StateT.bind, Except.bind, hminus, hplus]

/-- The letter of an exponent, seen by its reader. -/
theorem exponentPart_letter {c : Char} (hc : c = 'e' ∨ c = 'E') (s : List Char) (short : Error) :
    exponentPart short (c :: s)
      = (do let negative ← exponentSign; return some (negative, ← digits short)) s := by
  have hletter : some c = some 'e' ∨ some c = some 'E' := by
    rcases hc with rfl | rfl
    · exact Or.inl rfl
    · exact Or.inr rfl
  rw [exponentPart, Reader.bind_ok (look_cons c s), if_pos hletter]
  rfl

theorem exponentPart_append {x : Option (Bool × List Char)} {t rest : List Char}
    (h : ExponentText x t) (hrest : Delimited rest) (short : Error) :
    exponentPart short (t ++ rest) = .ok (x, rest) := by
  cases h with
  | absent =>
      have hlook : look rest = .ok (rest.head?, rest) := rfl
      rw [exponentPart, List.nil_append, Reader.bind_ok hlook, if_neg]
      · rfl
      · rintro (heq | heq) <;> obtain ⟨u, hu⟩ := List.head?_eq_some_iff.mp heq
        · exact (hrest _ _ hu).2.2.1 rfl
        · exact (hrest _ _ hu).2.2.2 rfl
  | unsigned hc hds =>
      rw [List.cons_append, exponentPart_letter hc, Reader.bind_ok (exponentSign_digits hds rest),
        Reader.bind_ok (digits_append hds hrest.noDigit short)]
      rfl
  | @plus c ds hc hds =>
      have hsign : exponentSign ('+' :: (ds ++ rest)) = .ok (false, ds ++ rest) := rfl
      rw [List.cons_append, exponentPart_letter hc, List.cons_append, Reader.bind_ok hsign,
        Reader.bind_ok (digits_append hds hrest.noDigit short)]
      rfl
  | @minus c ds hc hds =>
      have hsign : exponentSign ('-' :: (ds ++ rest)) = .ok (true, ds ++ rest) := rfl
      rw [List.cons_append, exponentPart_letter hc, List.cons_append, Reader.bind_ok hsign,
        Reader.bind_ok (digits_append hds hrest.noDigit short)]
      rfl

/-- A numeral is read to its end, and no further. -/
theorem read_append {n : Numeral} {t rest : List Char} (h : NumeralText n t)
    (hrest : Delimited rest) (short : Error) : read short (t ++ rest) = .ok (n, rest) := by
  obtain ⟨hwhole, hzero, f, x, hf, hx, rfl⟩ := h
  have hafter : NoDigit (x ++ rest) := hx.noDigit hrest.noDigit
  have hpoint : ∀ u, f ++ (x ++ rest) = '.' :: u → n.fraction ≠ none := by
    intro u hu hnone
    rw [hnone] at hf
    cases hf
    exact hx.noPoint hrest u hu
  rw [read]
  simp only [List.append_assoc]
  rw [Reader.bind_ok (sign_append n.negative hwhole _),
    Reader.bind_ok (wholePart_append hwhole hzero (hf.noDigit hafter) short),
    Reader.bind_ok (fractionPart_append hf hafter hpoint short),
    Reader.bind_ok (exponentPart_append hx hrest short)]
  rfl

end Numeral

theorem number_append {n : Numeral} {x : Number} {t rest : List Char} (h : NumeralText n t)
    (hx : n.value = .ok x) (hrest : Delimited rest) : number (t ++ rest) = .ok (x, rest) := by
  rw [number, Reader.bind_ok (Numeral.read_append h hrest _), hx]
  rfl

/-! ## Scalars -/

theorem NumeralText.head {n : Numeral} {t : List Char} (h : NumeralText n t) :
    ∃ c u, t = c :: u ∧ (c = '-' ∨ isDigit c = true) := by
  obtain ⟨hwhole, -, f, x, -, -, rfl⟩ := h
  cases hsign : n.negative with
  | true => exact ⟨'-', _, rfl, Or.inl rfl⟩
  | false =>
      obtain ⟨d, ds, hds, hd⟩ := Numeral.digits_head hwhole
      exact ⟨d, ds ++ (f ++ x), by rw [hds]; rfl, Or.inr hd⟩

/-- The first character of a numeral starts nothing else. -/
theorem numeralHead_ne {c : Char} (h : c = '-' ∨ isDigit c = true) :
    c ≠ 'n' ∧ c ≠ 't' ∧ c ≠ 'f' ∧ c ≠ '"' ∧ c ≠ '[' ∧ c ≠ '\x7b' := by
  refine ⟨?_, ?_, ?_, ?_, ?_, ?_⟩ <;>
    (rintro rfl; rcases h with h | h <;> exact absurd h (by decide))

theorem scalar_append {s : Scalar} {t : List Char} (h : ScalarText s t) {rest : List Char}
    (hrest : Delimited rest) :
    ∃ c u, t = c :: u ∧ c ≠ '[' ∧ c ≠ '\x7b' ∧ scalar c (t ++ rest) = .ok (s, rest) := by
  cases h with
  | null => exact ⟨_, _, rfl, by decide, by decide, rfl⟩
  | yes => exact ⟨_, _, rfl, by decide, by decide, rfl⟩
  | no => exact ⟨_, _, rfl, by decide, by decide, rfl⟩
  | number ht hx =>
      obtain ⟨c, u, rfl, hc⟩ := ht.head
      obtain ⟨hn, hyes, hno, hquote, hlist, hmap⟩ := numeralHead_ne hc
      refine ⟨c, u, rfl, hlist, hmap, ?_⟩
      rw [scalar, if_neg hn, if_neg hyes, if_neg hno, if_neg hquote, if_pos (by simpa using hc),
        Reader.bind_ok (number_append ht hx hrest)]
      rfl
  | string ht =>
      obtain ⟨ht⟩ := ht
      refine ⟨_, _, rfl, by decide, by decide, ?_⟩
      rw [List.cons_append, List.append_assoc]
      have hquote : scalar '"' = (do advance; return Scalar.string (← string)) := rfl
      rw [hquote, Reader.bind_ok (advance_cons _ _)]
      exact Reader.bind_ok (string_charsText ht rest)

/-- A scalar is read on the spot. -/
theorem form_scalar {s : Scalar} {t : List Char} (h : ScalarText s t) {rest : List Char}
    (hrest : Delimited rest) : form (t ++ rest) = .ok (.scalar s, rest) := by
  obtain ⟨c, u, hcu, hlist, hmap, hread⟩ := scalar_append h hrest
  obtain ⟨c', u', hcu', hspace, -⟩ := h.begins
  rw [hcu] at hcu'
  cases hcu'
  rw [hcu, List.cons_append] at hread ⊢
  rw [form, Reader.bind_ok (peek_cons hspace _)]
  simp only [if_neg hlist, if_neg hmap]
  rw [Reader.bind_ok hread]
  rfl

end Adorn.Json
