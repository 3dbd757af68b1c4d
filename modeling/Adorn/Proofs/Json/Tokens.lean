import Adorn.Proofs.Json.Settles

/-!
# What tokens settle

Words and strings end by themselves: cut anywhere, they fail because
the text ends too early (`string_settles`). A numeral goes on for as
long as it can. What a part of a numeral is read as is another numeral
that ends with the text, or no numeral at all (`Numeral.read_settles`).
-/

namespace Adorn.Json

open Text (isDigit hexValue? hexValue4?)

variable {s : List Char}

/-! ## Words -/

theorem word_eq_ok : (cs : List Char) → {s rest : List Char} → {x : Unit} →
    word cs s = .ok (x, rest) → s = cs ++ rest
  | [], _, _, _, h => by
      cases h
      rfl
  | c :: cs, s, rest, x, h => by
      obtain ⟨d, t, hd, ht⟩ := Reader.bind_eq_ok h
      cases s with
      | nil => cases hd
      | cons e s =>
          cases hd
          split at ht
          · next heq => rw [heq, word_eq_ok cs ht, List.cons_append]
          · cases ht

theorem word_cut : (p : List Char) → {u : List Char} → u ≠ [] → word (p ++ u) p = .error .endOfValue
  | [], u, hu => by
      obtain ⟨c, u, rfl⟩ := List.exists_cons_of_ne_nil hu
      rfl
  | c :: p, u, hu => by
      rw [List.cons_append, word, Reader.bind_ok (next_cons _ c p), if_pos rfl]
      exact word_cut p hu

theorem word_settles (cs : List Char) (hcs : ∀ c ∈ cs, isSpace c = false ∧ c ≠ '"') :
    Settles .start (fun _ => .still .start) (word cs) s := by
  intro _ x rest hx
  refine ⟨cs, word_eq_ok cs hx, Quoting.through_outside cs fun c hc => (hcs c hc).2, nofun, nofun,
    fun _ _ hne => ?_, fun v _ => word_append cs v, fun p u hpu _ => ?_⟩
  · obtain ⟨w, c, rfl⟩ := (List.eq_nil_or_concat cs).resolve_left hne
    rw [List.concat_eq_append] at hcs ⊢
    exact ⟨w, c, rfl, (hcs c (by simp)).1⟩
  · subst hpu
    cases u with
    | nil =>
        refine .whole rfl rfl ?_
        have hword := word_append p []
        rwa [List.append_nil] at hword ⊢
    | cons c u => exact .short (word_cut p (List.cons_ne_nil c u)) rfl

/-- A word that stands for a value. -/
theorem keyword_settles {α : Type} {c : Char} {cs : List Char}
    (hcs : ∀ d ∈ c :: cs, isSpace d = false ∧ d ≠ '"') (x : α) :
    Settles (.facing c) (fun _ => .closed) (do advance; word cs; return x) s := by
  obtain ⟨hc, hcs⟩ := List.forall_mem_cons.mp hcs
  exact .behind (g := fun _ => .still .start) hc
    (fun _ => (word_settles cs hcs).map fun _ => rfl) fun _ => rfl

/-! ## Strings -/

/-- A hexadecimal digit is one byte, and neither a quote nor a backslash. -/
theorem hexValue?_spec {c : Char} {n : Nat} (h : hexValue? c = some n) :
    c.utf8Size = 1 ∧ c ≠ '"' ∧ c ≠ '\\' := by
  refine ⟨?_, ?_, ?_⟩
  · have hsmall : c.toNat ≤ 0x7f := by
      simp only [hexValue?, Bool.and_eq_true, decide_eq_true_eq] at h
      split at h
      · omega
      · split at h
        · omega
        · split at h
          · omega
          · cases h
    exact Char.utf8Size_eq_one_iff.mpr (UInt32.le_iff_toNat_le.mpr hsmall)
  · rintro rfl
    cases h
  · rintro rfl
    cases h

/-- Digits that a string may hold. -/
def HexDigits (ds : List Char) : Prop :=
  ∀ c ∈ ds, c.utf8Size = 1 ∧ c ≠ '"' ∧ c ≠ '\\'

theorem hexDigits_of_value {a b c d : Char} {n : Nat} (h : hexValue4? a b c d = some n) :
    HexDigits [a, b, c, d] := by
  simp only [hexValue4?, Option.bind_eq_bind, Option.bind_eq_some_iff] at h
  obtain ⟨_, ha, _, hb, _, hc, _, hd, _⟩ := h
  simp only [HexDigits, List.forall_mem_cons]
  exact ⟨hexValue?_spec ha, hexValue?_spec hb, hexValue?_spec hc, hexValue?_spec hd, nofun⟩

theorem HexDigits.inside : {ds : List Char} → HexDigits ds → Quoting.inside.through ds = .inside
  | [], _ => rfl
  | c :: ds, h => by
      have hc := h c (List.mem_cons_self ..)
      rw [Quoting.through_cons, Quoting.after, if_neg hc.2.1, if_neg hc.2.2]
      exact HexDigits.inside fun d hd => h d (List.mem_cons_of_mem _ hd)

theorem HexDigits.byteLength {ds : List Char} (h : HexDigits ds) : byteLength ds = ds.length := by
  have hfold : ∀ (ds : List Char) (n : Nat), HexDigits ds →
      ds.foldl (fun n c => n + c.utf8Size) n = n + ds.length := by
    intro ds
    induction ds with
    | nil => intro n _; rfl
    | cons c ds ih =>
        intro n hds
        rw [List.foldl_cons, (hds c (List.mem_cons_self ..)).1,
          ih _ fun d hd => hds d (List.mem_cons_of_mem _ hd), List.length_cons]
        omega
  rw [Json.byteLength, hfold ds 0 h, Nat.zero_add]

theorem hexUnit_short {p : List Char} (hp : HexDigits p) (hlength : p.length < 4) :
    hexUnit p = .error .endOfString := by
  unfold hexUnit
  split
  · simp only [List.length_cons] at hlength
    omega
  · rw [hp.byteLength, if_neg (by omega)]

theorem hexUnit_settles : Settles ⟨.inside, none⟩ (fun _ => .quoted) hexUnit s := by
  intro _ n rest hn
  unfold hexUnit at hn
  split at hn
  · next a b c d s _ =>
      split at hn
      · next m hm =>
          cases hn
          have hdigits := hexDigits_of_value hm
          refine ⟨[a, b, c, d], rfl, hdigits.inside, nofun, fun _ => List.cons_ne_nil _ _, nofun,
            fun v _ => hexUnit_cons hm v, fun p u hpu _ => ?_⟩
          cases u with
          | nil =>
              rw [List.append_nil] at hpu
              subst hpu
              exact .whole rfl rfl (hexUnit_cons hm [])
          | cons e u =>
              have hp : HexDigits p := fun c hc => hdigits c (hpu ▸ List.mem_append_left _ hc)
              have hlength := congrArg List.length hpu
              simp only [List.length_append, List.length_cons, List.length_nil] at hlength
              exact .short (hexUnit_short hp (by omega)) rfl
      · cases hn
  · cases hn

theorem numericEscape_settles : Settles ⟨.inside, none⟩ (fun _ => .quoted) numericEscape s := by
  unfold numericEscape
  refine .bind (g := fun _ _ => .still ⟨.inside, none⟩) hexUnit_settles (fun n rest => ?_)
    fun _ _ => rfl
  refine .ite (fun _ => .throw _) fun _ => .ite (fun _ => ?_) fun _ => .pure rfl
  refine .bind (g := fun _ _ => .still ⟨.inside, none⟩) (.next .inside nofun rfl)
    (fun c rest => ?_) fun _ _ => rfl
  refine .ite (fun _ => .of_error rfl) fun hc => ?_
  obtain rfl : c = '\\' := Decidable.not_not.mp hc
  refine .bind (g := fun _ _ => .still ⟨.inside, none⟩) (.next .escaped nofun rfl)
    (fun d rest => ?_) fun _ _ => rfl
  refine .ite (fun _ => .of_error rfl) fun _ => ?_
  refine .bind (g := fun _ _ => .still ⟨.inside, none⟩) hexUnit_settles (fun m rest => ?_)
    fun _ _ => rfl
  exact .ite (fun _ => .pure rfl) fun _ => .throw _

theorem escape_settles : Settles ⟨.escaped, none⟩ (fun _ => .quoted) escape s := by
  unfold escape
  refine .bind (g := fun _ _ => .still ⟨.inside, none⟩) (.next .escaped nofun rfl)
    (fun c rest => ?_) fun _ _ => rfl
  split
  · exact .pure rfl
  · exact .ite (fun _ => numericEscape_settles.weaken fun _ => rfl) fun _ => .throw _

theorem skipEscape_settles : Settles ⟨.escaped, none⟩ (fun _ => .quoted) skipEscape s := by
  unfold skipEscape
  refine .bind (g := fun _ _ => .still ⟨.inside, none⟩) (.next .escaped nofun rfl)
    (fun c rest => ?_) fun _ _ => rfl
  refine .ite (fun _ => .pure rfl) fun _ => .ite (fun _ => ?_) fun _ => .throw _
  exact hexUnit_settles.map fun _ => rfl

/-- A round goes on inside the string; the last one leaves it. -/
def stringHold {σ α : Type} : σ ⊕ α → Hold
  | .inl _ => .quoted
  | .inr _ => .closed

/-- One round of a string, whatever it makes of the characters. -/
theorem quotedStep_settles {σ α τ : Type} {escaped : Reader τ}
    (hescaped : ∀ s, Settles ⟨.escaped, none⟩ (fun _ => .quoted) escaped s) (last : α) (m : τ → σ)
    (n : Char → σ) : Settles ⟨.inside, none⟩ stringHold (next .endOfString >>= fun c =>
      if c = '"' then pure (.inr last)
      else if c = '\\' then escaped >>= fun d => pure (.inl (m d))
      else if c.toNat < 0x20 then throw .controlCharacter
      else pure (.inl (n c))) s := by
  refine .bind (g := fun _ y => .still (stringHold y).toPoint) (.next .inside nofun rfl)
    (fun c rest => ?_) fun c y => by cases y <;> rfl
  refine .ite (fun hquote => ?_) fun hquote => .ite (fun hslash => ?_) fun hslash => ?_
  · subst hquote
    exact .pure rfl
  · subst hslash
    exact (hescaped _).map fun _ => rfl
  · refine .ite (fun _ => .throw _) fun _ => .pure ?_
    simp [Hold.covers_iff, Hold.still, stringHold, Hold.quoted, Quoting.after, hquote, hslash]

theorem string_settles : Settles ⟨.inside, none⟩ (fun _ => .closed) string s :=
  .loop (fun text _ => quotedStep_settles (fun _ => escape_settles) text _ _)
    (fun _ => ⟨rfl, rfl⟩) (fun _ _ => rfl) _ _

theorem skipString_settles : Settles ⟨.inside, none⟩ (fun _ => .closed) skipString s :=
  .loop (fun _ _ => quotedStep_settles (fun _ => skipEscape_settles) () _ _)
    (fun _ => ⟨rfl, rfl⟩) (fun _ _ => rfl) _ _

/-! ## Readers that look ahead -/

namespace Reader

variable {α β : Type}

/-- Gives the same value wherever the text goes on with the same character. -/
def Steady (r : Reader α) : Prop :=
  ∀ s x rest, r s = .ok (x, rest) →
    ∃ used, s = used ++ rest ∧ ∀ v, v.head? = rest.head? → r (used ++ v) = .ok (x, v)

namespace Steady

theorem pure (x : α) : Steady (Pure.pure x : Reader α) := by
  intro s y rest h
  cases h
  exact ⟨[], rfl, fun _ _ => rfl⟩

theorem throw (e : Error) : Steady (MonadExcept.throw e : Reader α) :=
  nofun

theorem look : Steady Json.look := by
  intro s c rest h
  cases h
  refine ⟨[], rfl, fun v hv => ?_⟩
  rw [List.nil_append, Json.look, hv]

theorem advance : Steady Json.advance := by
  intro s x rest h
  cases h
  cases s with
  | nil => exact ⟨[], rfl, fun v hv => by rw [List.head?_eq_none_iff.mp hv]; rfl⟩
  | cons c s => exact ⟨[c], rfl, fun _ _ => rfl⟩

theorem bind {r : Reader α} {k : α → Reader β} (hr : r.Steady) (hk : ∀ x, (k x).Steady) :
    Steady (r >>= k) := by
  intro s z rest' h
  obtain ⟨x, rest, hx, hz⟩ := bind_eq_ok h
  obtain ⟨used, rfl, hu⟩ := hr s x rest hx
  obtain ⟨used', rfl, hu'⟩ := hk x rest z rest' hz
  refine ⟨used ++ used', (List.append_assoc ..).symm, fun v hv => ?_⟩
  rw [List.append_assoc, bind_ok (hu (used' ++ v) ?_), hu' v hv]
  cases used' with
  | nil => exact hv
  | cons c used' => rfl

theorem ite {c : Prop} [Decidable c] {r r' : Reader α} (hr : r.Steady) (hr' : r'.Steady) :
    Steady (if c then r else r') := by
  by_cases hc : c
  · rwa [if_pos hc]
  · rwa [if_neg hc]

end Steady

end Reader

/-! ## Numerals -/

theorem Digits.not_quote {ds : List Char} (h : Digits ds) : ∀ c ∈ ds, c ≠ '"' := by
  rintro c hc rfl
  exact absurd (h.2 _ hc) (by decide)

theorem FractionText.not_quote {f : Option (List Char)} {t : List Char} (h : FractionText f t) :
    ∀ c ∈ t, c ≠ '"' := by
  cases h with
  | absent => exact nofun
  | present hds => exact List.forall_mem_cons.mpr ⟨by decide, hds.not_quote⟩

theorem ExponentText.not_quote {x : Option (Bool × List Char)} {t : List Char}
    (h : ExponentText x t) : ∀ c ∈ t, c ≠ '"' := by
  have hletter : ∀ {c : Char}, c = 'e' ∨ c = 'E' → c ≠ '"' := by
    rintro c (rfl | rfl) <;> decide
  cases h with
  | absent => exact nofun
  | unsigned hc hds => exact List.forall_mem_cons.mpr ⟨hletter hc, hds.not_quote⟩
  | plus hc hds | minus hc hds =>
      exact List.forall_mem_cons.mpr ⟨hletter hc,
        List.forall_mem_cons.mpr ⟨by decide, hds.not_quote⟩⟩

/-- No numeral holds a quote. -/
theorem NumeralText.not_quote {n : Numeral} {t : List Char} (h : NumeralText n t) :
    ∀ c ∈ t, c ≠ '"' := by
  obtain ⟨hwhole, -, f, x, hf, hx, rfl⟩ := h
  intro c hc
  simp only [List.mem_append] at hc
  rcases hc with hc | hc | hc | hc
  · cases hnegative : n.negative <;> simp [signText, hnegative] at hc
    rw [hc]
    decide
  · exact hwhole.not_quote c hc
  · exact hf.not_quote c hc
  · exact hx.not_quote c hc

namespace Numeral

open Reader (Steady)

variable {short : Error} {rest : List Char}

theorem digits_eq_ok {ds : List Char} (h : digits short s = .ok (ds, rest)) :
    Digits ds ∧ s = ds ++ rest ∧ NoDigit rest := by
  cases s with
  | nil => cases h
  | cons c s =>
      rw [digits] at h
      split at h
      · next hc =>
          cases h
          refine ⟨⟨?_, fun d hd => ?_⟩, List.takeWhile_append_dropWhile.symm, fun d t ht => ?_⟩
          · rw [List.takeWhile_cons_of_pos hc]
            exact List.cons_ne_nil _ _
          · exact List.all_eq_true.mp List.all_takeWhile d hd
          · have hhead := List.head?_dropWhile_not isDigit (c :: s)
            rw [ht] at hhead
            exact hhead
      · cases h

theorem digits_steady : (digits short).Steady := by
  intro s ds rest h
  obtain ⟨hds, rfl, hrest⟩ := digits_eq_ok h
  refine ⟨ds, rfl, fun v hv => digits_append hds (fun c t hc => ?_) short⟩
  rw [hc] at hv
  obtain ⟨t', rfl⟩ := List.head?_eq_some_iff.mp hv.symm
  exact hrest c t' rfl

theorem read_steady : (read short).Steady := by
  have hsign : sign.Steady := .bind .look fun _ => .ite (.bind .advance fun _ => .pure _) (.pure _)
  have hwhole : (wholePart short).Steady := by
    refine .bind digits_steady fun ds => ?_
    split
    · exact .throw _
    · exact .pure _
  have hfraction : (fractionPart short).Steady :=
    .bind .look fun _ =>
      .ite (.bind .advance fun _ => .bind digits_steady fun _ => .pure _) (.pure _)
  have hexponentSign : exponentSign.Steady := by
    refine .bind .look fun c => ?_
    split
    · exact .bind .advance fun _ => .pure _
    · exact .bind .advance fun _ => .pure _
    · exact .pure _
  have hexponent : (exponentPart short).Steady :=
    .bind .look fun _ => .ite (.bind .advance fun _ => .bind hexponentSign fun _ =>
      .bind digits_steady fun _ => .pure _) (.pure _)
  exact .bind hsign fun _ => .bind hwhole fun _ => .bind hfraction fun _ => .bind hexponent fun _ =>
    .pure _

theorem sign_eq_ok {b : Bool} (h : sign s = .ok (b, rest)) : s = signText b ++ rest := by
  obtain ⟨c, t, hc, ht⟩ := Reader.bind_eq_ok h
  cases hc
  split at ht
  · next hminus =>
      obtain ⟨t, rfl⟩ := List.head?_eq_some_iff.mp hminus
      cases ht
      rfl
  · cases ht
    rfl

theorem wholePart_eq_ok {ds : List Char} (h : wholePart short s = .ok (ds, rest)) :
    Digits ds ∧ (∀ d ds', ds ≠ '0' :: d :: ds') ∧ s = ds ++ rest := by
  obtain ⟨ds', t, hds, ht⟩ := Reader.bind_eq_ok h
  obtain ⟨hdigits, rfl, _⟩ := digits_eq_ok hds
  split at ht
  · cases ht
  · next hzero =>
      cases ht
      exact ⟨hdigits, fun d ds' => hzero d ds', rfl⟩

theorem fractionPart_eq_ok {f : Option (List Char)} (h : fractionPart short s = .ok (f, rest)) :
    ∃ t, FractionText f t ∧ s = t ++ rest := by
  obtain ⟨c, t, hc, ht⟩ := Reader.bind_eq_ok h
  cases hc
  split at ht
  · next hpoint =>
      obtain ⟨t, rfl⟩ := List.head?_eq_some_iff.mp hpoint
      rw [Reader.bind_ok (advance_cons '.' t)] at ht
      obtain ⟨ds, t', hds, ht'⟩ := Reader.bind_eq_ok ht
      obtain ⟨hdigits, rfl, _⟩ := digits_eq_ok hds
      cases ht'
      exact ⟨'.' :: ds, .present hdigits, rfl⟩
  · cases ht
    exact ⟨[], .absent, rfl⟩

theorem exponentSign_eq_ok {b : Bool} (h : exponentSign s = .ok (b, rest)) :
    (b = true ∧ s = '-' :: rest) ∨ (b = false ∧ (s = '+' :: rest ∨ s = rest)) := by
  obtain ⟨c, t, hc, ht⟩ := Reader.bind_eq_ok h
  obtain ⟨hhead, rfl⟩ : s.head? = c ∧ s = t := by
    cases hc
    exact ⟨rfl, rfl⟩
  split at ht
  · obtain ⟨t, rfl⟩ := List.head?_eq_some_iff.mp hhead
    cases ht
    exact .inl ⟨rfl, rfl⟩
  · obtain ⟨t, rfl⟩ := List.head?_eq_some_iff.mp hhead
    cases ht
    exact .inr ⟨rfl, .inl rfl⟩
  · cases ht
    exact .inr ⟨rfl, .inr rfl⟩

theorem exponentPart_eq_ok {x : Option (Bool × List Char)}
    (h : exponentPart short s = .ok (x, rest)) : ∃ t, ExponentText x t ∧ s = t ++ rest := by
  obtain ⟨c, t, hc, ht⟩ := Reader.bind_eq_ok h
  cases hc
  split at ht
  · next hletter =>
      have hcons : ∃ c t, s = c :: t ∧ (c = 'e' ∨ c = 'E') := by
        rcases hletter with heq | heq
        · obtain ⟨t, rfl⟩ := List.head?_eq_some_iff.mp heq
          exact ⟨_, t, rfl, .inl rfl⟩
        · obtain ⟨t, rfl⟩ := List.head?_eq_some_iff.mp heq
          exact ⟨_, t, rfl, .inr rfl⟩
      obtain ⟨c, t, rfl, hc⟩ := hcons
      rw [Reader.bind_ok (advance_cons c t)] at ht
      obtain ⟨negative, t', hsign, ht'⟩ := Reader.bind_eq_ok ht
      obtain ⟨ds, t'', hds, hx⟩ := Reader.bind_eq_ok ht'
      obtain ⟨hdigits, rfl, _⟩ := digits_eq_ok hds
      cases hx
      rcases exponentSign_eq_ok hsign with ⟨rfl, rfl⟩ | ⟨rfl, rfl | rfl⟩
      · exact ⟨c :: '-' :: ds, .minus hc hdigits, rfl⟩
      · exact ⟨c :: '+' :: ds, .plus hc hdigits, rfl⟩
      · exact ⟨c :: ds, .unsigned hc hdigits, rfl⟩
  · cases ht
    exact ⟨[], .absent, rfl⟩

/-- What is read as a numeral is spelled as one. -/
theorem read_eq_ok {n : Numeral} (h : read short s = .ok (n, rest)) :
    ∃ t, NumeralText n t ∧ s = t ++ rest := by
  obtain ⟨negative, s₁, hsign, h⟩ := Reader.bind_eq_ok h
  obtain ⟨whole, s₂, hwhole, h⟩ := Reader.bind_eq_ok h
  obtain ⟨fraction, s₃, hfraction, h⟩ := Reader.bind_eq_ok h
  obtain ⟨exponent, s₄, hexponent, h⟩ := Reader.bind_eq_ok h
  cases h
  obtain rfl := sign_eq_ok hsign
  obtain ⟨hdigits, hzero, rfl⟩ := wholePart_eq_ok hwhole
  obtain ⟨f, hf, rfl⟩ := fractionPart_eq_ok hfraction
  obtain ⟨x, hx, rfl⟩ := exponentPart_eq_ok hexponent
  exact ⟨_, ⟨hdigits, hzero, f, x, hf, hx, rfl⟩, by simp only [List.append_assoc]⟩

/-- A part of a numeral that is read as a numeral is read to its end: it would be read like that in
front of the other part as well. -/
theorem read_part {n y : Numeral} {p u t : List Char} (hn : NumeralText n (p ++ u))
    (hy : read short p = .ok (y, t)) : t = [] := by
  obtain ⟨used, rfl, hused⟩ := read_steady p y t hy
  cases t with
  | nil => rfl
  | cons c t =>
      have hlong := hused (c :: t ++ u) rfl
      have hwhole := read_append hn .nil short
      rw [List.append_nil, List.append_assoc, hlong] at hwhole
      cases hwhole

theorem read_settles {c : Char} : Settles (.facing c) (fun _ => .loose) (read short) s := by
  intro hfits n rest hn
  obtain ⟨t, ht, rfl⟩ := read_eq_ok hn
  have hne : t ≠ [] := by
    obtain ⟨d, u, rfl, _⟩ := ht.head
    exact List.cons_ne_nil _ _
  obtain ⟨used, hused, hsteady⟩ := read_steady _ n rest hn
  obtain rfl := List.append_cancel_right hused
  refine ⟨t, rfl, Quoting.through_outside t ht.not_quote, nofun, fun _ => hne, nofun,
    fun v hv => hsteady v (hv.resolve_left nofun), fun p u hpu hp => ?_⟩
  subst hpu
  cases u with
  | nil =>
      rw [List.append_nil] at ht
      have hwhole := read_append ht .nil short
      rw [List.append_nil] at hwhole
      exact .whole rfl rfl hwhole
  | cons d u =>
      obtain ⟨p', rfl⟩ := List.head?_eq_some_iff.mp (hp c rfl)
      refine .numeral ⟨[], c :: p', d :: u, rest, n, rfl, rfl, List.cons_ne_nil _ _,
        List.cons_ne_nil _ _, rfl, ht⟩ fun y t hy => ⟨rfl, rfl, read_part ht hy⟩

end Numeral

theorem number_settles {c : Char} : Settles (.facing c) (fun _ => .loose) number s :=
  .bind (g := fun _ _ => .still .start) Numeral.read_settles (fun _ _ => .lift fun _ => rfl)
    fun _ _ => rfl

theorem skipNumber_settles {c : Char} : Settles (.facing c) (fun _ => .loose) skipNumber s :=
  Numeral.read_settles.map fun _ => rfl

/-! ## Scalars -/

theorem scalar_settles {c : Char} (hc : isSpace c = false) :
    Settles (.facing c) (fun _ => .loose) (scalar c) s := by
  unfold scalar
  refine .ite (fun h => ?_) fun _ => .ite (fun h => ?_) fun _ => .ite (fun h => ?_) fun _ =>
    .ite (fun h => ?_) fun _ => .ite (fun _ => ?_) fun _ => .throw _
  · subst h
    exact (keyword_settles (by simp [isSpace]) _).weaken fun _ => rfl
  · subst h
    exact (keyword_settles (by simp [isSpace]) _).weaken fun _ => rfl
  · subst h
    exact (keyword_settles (by simp [isSpace]) _).weaken fun _ => rfl
  · subst h
    exact .bind (g := fun _ _ => .closed) (.advance hc)
      (fun _ _ => string_settles.map fun _ => rfl) fun _ _ => rfl
  · exact number_settles.map fun _ => rfl

/-- What is known of the form of a value. -/
def formHold : Form → Hold
  | .scalar _ => .loose
  | .sequence => .before '['
  | .map => .before '\x7b'

theorem form_settles : Settles .start formHold form s := by
  unfold form
  refine .peek rfl rfl (fun c t hc => ?_) fun y => by cases y <;> rfl
  refine .ite (fun h => ?_) fun _ => .ite (fun h => ?_) fun _ => ?_
  · subst h
    exact .pure rfl
  · subst h
    exact .pure rfl
  · exact (scalar_settles hc).map fun _ => rfl

/-- What is known behind a value that starts with its form. -/
def restHold {β : Type} (g f : β → Hold) : Form → β → Hold
  | .scalar _ => g
  | _ => f

/-- The form of a value decides how to go on. -/
theorem Settles.form {β : Type} {k : Form → Reader β} {g f : β → Hold}
    (hscalar : ∀ x t, Settles .start g (k (.scalar x)) t)
    (hsequence : ∀ t, Settles (.facing '[') f (k .sequence) t)
    (hmap : ∀ t, Settles (.facing '\x7b') f (k .map) t)
    (hjoin : ∀ z, (Hold.loose.followedBy (g z)).covers (f z) = true)
    (hfirm : ∀ z, (f z).decided = true) :
    Settles .start f (Json.form >>= k) s := by
  have hbefore : ∀ c z, ((Hold.before c).followedBy (f z)).covers (f z) = true := by
    intro c z
    have hz := hfirm z
    simp only [Hold.decided, Bool.or_eq_true, Bool.not_eq_true'] at hz
    rw [Hold.covers_iff]
    refine ⟨rfl, .inr rfl, id, fun hf => ?_⟩
    rcases hz with hloose | htakes
    · rw [hloose] at hf
      cases hf
    · simp [Hold.followedBy, hf, htakes]
  refine .bind (g := restHold g f) form_settles (fun y t => ?_) fun y z => ?_
  · cases y with
    | scalar x => exact hscalar x t
    | sequence => exact hsequence t
    | map => exact hmap t
  · cases y with
    | scalar x => exact hjoin z
    | sequence => exact hbefore _ z
    | map => exact hbefore _ z

end Adorn.Json
