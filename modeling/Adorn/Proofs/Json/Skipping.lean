import Adorn.Json.Skip
import Adorn.Proofs.Json.Trees

/-!
# Passing over values

Every well formed text is passed over to its end, whatever it nests and
whether or not it spells anything (`skip_wellFormed`). A pass is a
machine with a stack of open brackets. `Passed` is the invariant: with
any brackets open, a value leads the machine from before it to after it
and leaves the stack as it was.
-/

namespace Adorn.Json

/-! ## Scalars -/

theorem skipEscape_short {c d : Char} (h : shortEscape? d = some c) (rest : List Char) :
    skipEscape (d :: rest) = .ok ((), rest) := by
  rw [skipEscape, Reader.bind_ok (next_cons _ d rest), h]
  rfl

theorem skipEscape_numeric {a b c d : Char} {n : Nat} (h : Text.hexValue4? a b c d = some n)
    (rest : List Char) : skipEscape ('u' :: a :: b :: c :: d :: rest) = .ok ((), rest) := by
  have hread : skipEscape ('u' :: a :: b :: c :: d :: rest)
      = (do let _ ← hexUnit) (a :: b :: c :: d :: rest) := rfl
  rw [hread, Reader.bind_ok (hexUnit_cons h rest)]
  rfl

theorem skipStringStep_slash {s rest : List Char} (h : skipEscape s = .ok ((), rest)) :
    skipStringStep () ('\\' :: s) = .ok (.inl (), rest) := by
  rw [skipStringStep, Reader.bind_ok (next_cons _ '\\' s)]
  exact Reader.bind_ok h

theorem skipStringStep_plain {c : Char} (hquote : c ≠ '"') (hslash : c ≠ '\\')
    (hcontrol : ¬c.toNat < 0x20) (rest : List Char) :
    skipStringStep () (c :: rest) = .ok (.inl (), rest) := by
  rw [skipStringStep, Reader.bind_ok (next_cons _ c rest), if_neg hquote, if_neg hslash,
    if_neg hcontrol]
  rfl

theorem QuotableText.ends {t : List Char} (h : QuotableText t) (rest : List Char) :
    Reader.Ends skipStringStep () (t ++ '"' :: rest) (.ok ((), rest)) := by
  induction h with
  | nil => exact .done rfl
  | plain hquote hslash hcontrol _ ih =>
      exact .next (skipStringStep_plain hquote hslash hcontrol _) (by simp) ih
  | short hd _ ih =>
      simp only [List.cons_append]
      refine .next (skipStringStep_slash (skipEscape_short hd _)) ?_ ih
      simp only [List.length_cons]
      omega
  | numeric hn _ ih =>
      simp only [List.cons_append]
      refine .next (skipStringStep_slash (skipEscape_numeric hn _)) ?_ ih
      simp only [List.length_cons]
      omega

theorem skipString_quotable {t : List Char} (h : QuotableText t) (rest : List Char) :
    skipString (t ++ '"' :: rest) = .ok ((), rest) :=
  Reader.loop_eq_of_ends (h.ends rest)

theorem skipNumber_append {n : Numeral} {t rest : List Char} (h : NumeralText n t)
    (hrest : Delimited rest) : skipNumber (t ++ rest) = .ok ((), rest) := by
  rw [skipNumber, Reader.bind_ok (Numeral.read_append h hrest _)]
  rfl

/-- A numeral is passed over as a scalar. -/
theorem skipScalar_numeral {n : Numeral} {t rest : List Char} (h : NumeralText n t)
    (hrest : Delimited rest) :
    ∃ c u, t = c :: u ∧ c ≠ '[' ∧ c ≠ '\x7b' ∧ skipScalar c (t ++ rest) = .ok ((), rest) := by
  obtain ⟨c, u, rfl, hc⟩ := h.head
  obtain ⟨hn, hyes, hno, hquote, hlist, hmap⟩ := numeralHead_ne hc
  refine ⟨c, u, rfl, hlist, hmap, ?_⟩
  rw [skipScalar, if_neg hn, if_neg hyes, if_neg hno, if_neg hquote, if_pos (by simpa using hc)]
  exact skipNumber_append h hrest

theorem skipScalar_quoted {t : List Char} (h : QuotedText t) (rest : List Char) :
    ∃ c u, t = c :: u ∧ c ≠ '[' ∧ c ≠ '\x7b' ∧ skipScalar c (t ++ rest) = .ok ((), rest) := by
  obtain ⟨h⟩ := h
  refine ⟨_, _, rfl, by decide, by decide, ?_⟩
  have hquote : skipScalar '"' = (do advance; skipString) := rfl
  rw [hquote, List.cons_append, List.append_assoc, Reader.bind_ok (advance_cons _ _)]
  exact skipString_quotable h rest

/-! ## One step of a pass -/

theorem skipStep_scalar {t rest : List Char} (hbegins : Begins t)
    (h : ∃ c u, t = c :: u ∧ c ≠ '[' ∧ c ≠ '\x7b' ∧ skipScalar c (t ++ rest) = .ok ((), rest))
    {b : List Char} (hb : Blanks b) (inside : List Bracket) :
    skipStep (.before inside) (b ++ (t ++ rest)) = .ok (.inl (.after inside), rest) := by
  obtain ⟨c, u, rfl, hlist, hmap, hread⟩ := h
  obtain ⟨c', u', heq, hspace, -⟩ := hbegins
  cases heq
  have hpeek : peek (b ++ (c :: u ++ rest)) = .ok (some c, c :: u ++ rest) := by
    rw [peek_blanks hb, List.cons_append, peek_cons hspace]
  rw [skipStep, Reader.bind_ok hpeek]
  simp only [if_neg hlist, if_neg hmap]
  rw [Reader.bind_ok hread]
  rfl

theorem skipStep_list {b : List Char} (hb : Blanks b) (inside : List Bracket) {s rest : List Char}
    {x : Passage} (h : skipOpening .list inside ('[' :: s) = .ok (x, rest)) :
    skipStep (.before inside) (b ++ '[' :: s) = .ok (.inl x, rest) := by
  have hpeek : peek (b ++ '[' :: s) = .ok (some '[', '[' :: s) := peek_blanks hb _
  rw [skipStep, Reader.bind_ok hpeek]
  exact Reader.bind_ok h

theorem skipStep_object {b : List Char} (hb : Blanks b) (inside : List Bracket)
    {s rest : List Char} {x : Passage}
    (h : skipOpening .object inside ('\x7b' :: s) = .ok (x, rest)) :
    skipStep (.before inside) (b ++ '\x7b' :: s) = .ok (.inl x, rest) := by
  have hpeek : peek (b ++ '\x7b' :: s) = .ok (some '\x7b', '\x7b' :: s) := peek_blanks hb _
  rw [skipStep, Reader.bind_ok hpeek]
  exact Reader.bind_ok h

theorem skipOpening_close {b : List Char} (hb : Blanks b) (k : Bracket) (inside : List Bracket)
    (c : Char) (rest : List Char) :
    skipOpening k inside (c :: (b ++ k.closing :: rest)) = .ok (.after inside, rest) := by
  have hspace : isSpace k.closing = false := by cases k <;> decide
  have hpeek : peek (b ++ k.closing :: rest) = .ok (some k.closing, k.closing :: rest) := by
    rw [peek_blanks hb, peek_cons hspace]
  rw [skipOpening, Reader.bind_ok (advance_cons c _), Reader.bind_ok hpeek]
  simp only [if_true]
  rfl

theorem skipOpening_part {k : Bracket} {b s t : List Char} {d : Char} (hb : Blanks b)
    (hspace : isSpace d = false) (hclose : d ≠ k.closing) (inside : List Bracket) (c : Char)
    (h : skipLabel k (d :: s) = .ok ((), t)) :
    skipOpening k inside (c :: (b ++ d :: s)) = .ok (.before (k :: inside), t) := by
  have hpeek : peek (b ++ d :: s) = .ok (some d, d :: s) := by
    rw [peek_blanks hb, peek_cons hspace]
  rw [skipOpening, Reader.bind_ok (advance_cons c _), Reader.bind_ok hpeek]
  simp only [if_neg hclose]
  exact Reader.bind_ok h

theorem skipSeparator_close {b : List Char} (hb : Blanks b) (k : Bracket) (inside : List Bracket)
    (rest : List Char) :
    skipStep (.after (k :: inside)) (b ++ k.closing :: rest)
      = .ok (.inl (.after inside), rest) := by
  have hspace : isSpace k.closing = false := by cases k <;> decide
  have hcomma : k.closing ≠ ',' := by cases k <;> decide
  have hpeek : peek (b ++ k.closing :: rest) = .ok (some k.closing, k.closing :: rest) := by
    rw [peek_blanks hb, peek_cons hspace]
  have hread : skipSeparator k inside (b ++ k.closing :: rest) = .ok (.after inside, rest) := by
    rw [skipSeparator, Reader.bind_ok hpeek]
    simp only [if_neg hcomma, if_true]
    rfl
  exact Reader.bind_ok hread

theorem skipSeparator_comma {k : Bracket} {b s t : List Char} (hb : Blanks b)
    (h : skipLabel k s = .ok ((), t)) (inside : List Bracket) :
    skipStep (.after (k :: inside)) (b ++ ',' :: s) = .ok (.inl (.before (k :: inside)), t) := by
  have hpeek : peek (b ++ ',' :: s) = .ok (some ',', ',' :: s) := peek_blanks hb _
  have hread : skipSeparator k inside (b ++ ',' :: s) = .ok (.before (k :: inside), t) := by
    rw [skipSeparator, Reader.bind_ok hpeek]
    simp only [if_true]
    rw [Reader.bind_ok (advance_cons _ _)]
    exact Reader.bind_ok h
  exact Reader.bind_ok hread

theorem skipLabel_object {b k c : List Char} (hb : Blanks b) (hk : QuotedText k) (hc : Blanks c)
    (rest : List Char) :
    skipLabel .object (b ++ (k ++ (c ++ ':' :: rest))) = .ok ((), rest) := by
  obtain ⟨hk⟩ := hk
  simp only [List.cons_append, List.append_assoc, List.nil_append]
  rw [skipLabel, Reader.bind_ok (peek_blanks hb _)]
  exact (Reader.bind_ok (advance_cons _ _)).trans
    ((Reader.bind_ok (skipString_quotable hk _)).trans (colon_append hc rest))

/-! ## Whole values -/

/-- With any brackets open, the text leads a pass from before a value to after it. -/
def Passed (p : List Char) : Prop :=
  ∀ (inside : List Bracket) {b rest : List Char}, Blanks b → Delimited rest →
    Reader.Steps skipStep (.before inside) (b ++ (p ++ rest)) (.after inside) rest

/-- The items that are left of an array, from behind one of them. -/
theorem ItemsText.passed : ∀ {ps : List (List Char)} {t : List Char}, ItemsText false ps t →
    (∀ p ∈ ps, Passed p) → ∀ (inside : List Bracket) (rest : List Char),
      Reader.Steps skipStep (.after (.list :: inside)) (t ++ rest) (.after inside) rest
  | [], t, ht, _, inside, rest => by
      cases ht with
      | close hb =>
          rw [List.append_assoc]
          refine .single (skipSeparator_close hb .list inside rest) ?_
          simp only [List.length_append, List.length_cons]
          omega
  | p :: ps, t, ht, hps, inside, rest => by
      obtain ⟨hp, hps'⟩ := List.forall_mem_cons.mp hps
      cases ht with
      | @next b b' _ u _ hb hb' hu =>
          simp only [List.append_assoc, List.cons_append]
          refine .cons (skipSeparator_comma (k := .list) hb rfl inside) ?_ ?_
          · simp only [List.length_append, List.length_cons]
            omega
          · exact (hp _ hb' (hu.delimited rest)).trans (hu.passed hps' inside rest)

/-- The entries that are left of an object, from behind one of them. -/
theorem EntriesText.passed : ∀ {ps : List (List Char × List Char)} {t : List Char},
    EntriesText false ps t → (∀ p ∈ ps, QuotedText p.1) → (∀ p ∈ ps, Passed p.2) →
      ∀ (inside : List Bracket) (rest : List Char),
        Reader.Steps skipStep (.after (.object :: inside)) (t ++ rest) (.after inside) rest
  | [], t, ht, _, _, inside, rest => by
      cases ht with
      | close hb =>
          rw [List.append_assoc]
          refine .single (skipSeparator_close hb .object inside rest) ?_
          simp only [List.length_append, List.length_cons]
          omega
  | (k, p) :: ps, t, ht, hkeys, hps, inside, rest => by
      obtain ⟨hk, hkeys'⟩ := List.forall_mem_cons.mp hkeys
      obtain ⟨hp, hps'⟩ := List.forall_mem_cons.mp hps
      cases ht with
      | @next b b' c d _ _ u _ hb hb' hc hd hu =>
          simp only [List.append_assoc, List.cons_append]
          refine .cons (skipSeparator_comma hb (skipLabel_object hb' hk hc _) inside) ?_ ?_
          · simp only [List.length_append, List.length_cons]
            omega
          · exact (hp _ hd (hu.delimited rest)).trans (hu.passed hkeys' hps' inside rest)

theorem passed_scalar {t : List Char} (hbegins : Begins t)
    (h : ∀ {rest : List Char}, Delimited rest →
      ∃ c u, t = c :: u ∧ c ≠ '[' ∧ c ≠ '\x7b' ∧ skipScalar c (t ++ rest) = .ok ((), rest)) :
    Passed t := by
  intro inside b rest hb hrest
  refine .single (skipStep_scalar hbegins (h hrest) hb inside) ?_
  have hpos := hbegins.length_pos
  simp only [List.length_append]
  omega

theorem passed_array {ps : List (List Char)} {t : List Char} (ht : ItemsText true ps t)
    (hbegins : ∀ p ∈ ps, Begins p) (hps : ∀ p ∈ ps, Passed p) : Passed ('[' :: t) := by
  intro inside b rest hb _
  cases ht with
  | close hc =>
      simp only [List.append_assoc, List.cons_append]
      refine .single (skipStep_list hb inside (skipOpening_close hc .list inside '[' rest)) ?_
      simp only [List.length_append, List.length_cons]
      omega
  | @first c p u ps hc hu =>
      obtain ⟨hp, hps'⟩ := List.forall_mem_cons.mp hps
      obtain ⟨d, v, rfl, hspace, hclose⟩ := hbegins p (List.mem_cons_self ..)
      have hitem := hp (.list :: inside) .nil (hu.delimited rest)
      simp only [List.nil_append, List.append_assoc, List.cons_append] at hitem ⊢
      refine .cons (skipStep_list hb inside
        (skipOpening_part (k := .list) hc hspace hclose inside '[' rfl)) ?_
        (hitem.trans (hu.passed hps' inside rest))
      simp only [List.length_append, List.length_cons]
      omega

theorem passed_object {ps : List (List Char × List Char)} {t : List Char}
    (ht : EntriesText true ps t) (hkeys : ∀ p ∈ ps, QuotedText p.1)
    (hps : ∀ p ∈ ps, Passed p.2) : Passed ('\x7b' :: t) := by
  intro inside b rest hb _
  cases ht with
  | close hc =>
      simp only [List.append_assoc, List.cons_append]
      refine .single
        (skipStep_object hb inside (skipOpening_close hc .object inside '\x7b' rest)) ?_
      simp only [List.length_append, List.length_cons]
      omega
  | @first c e f k p u ps hc he hf hu =>
      obtain ⟨hk, hkeys'⟩ := List.forall_mem_cons.mp hkeys
      obtain ⟨hp, hps'⟩ := List.forall_mem_cons.mp hps
      have hlabel := skipLabel_object .nil hk he (f ++ (p ++ (u ++ rest)))
      obtain ⟨_⟩ := hk
      simp only [List.nil_append, List.append_assoc, List.cons_append] at hlabel ⊢
      refine .cons (skipStep_object hb inside
        (skipOpening_part hc (by decide) (by decide) inside '\x7b' hlabel)) ?_
        ((hp _ hf (hu.delimited rest)).trans (hu.passed hkeys' hps' inside rest))
      simp only [List.length_append, List.length_cons]
      omega

theorem WellFormed.passed {t : List Char} (h : WellFormed t) : Passed t := by
  induction h with
  | null => exact passed_scalar WellFormed.null.begins fun _ => ⟨_, _, rfl, by decide, by decide, rfl⟩
  | yes => exact passed_scalar WellFormed.yes.begins fun _ => ⟨_, _, rfl, by decide, by decide, rfl⟩
  | no => exact passed_scalar WellFormed.no.begins fun _ => ⟨_, _, rfl, by decide, by decide, rfl⟩
  | number ht => exact passed_scalar ht.begins (skipScalar_numeral ht)
  | string ht =>
      exact passed_scalar (WellFormed.string ht).begins fun _ => skipScalar_quoted ht _
  | array hi hps ih => exact passed_array hi (fun p hp => (hps p hp).begins) ih
  | object hi hkeys _ ih => exact passed_object hi hkeys ih

/-- A well formed value is passed over to its end. -/
theorem skip_wellFormed {b t rest : List Char} (hb : Blanks b) (ht : WellFormed t)
    (hrest : Delimited rest) : skip (b ++ (t ++ rest)) = .ok ((), rest) :=
  Reader.loop_eq_of_ends ((ht.passed [] hb hrest).ends (.done rfl))

end Adorn.Json
