import Adorn.Options
import Adorn.Proofs.MemberDocument
import Adorn.Proofs.Wire.Settled

/-!
# Documents that are cut off

A document that lost its end is never taken for a shorter one. Every
type that travels as JSON is written between brackets, so its decoder
has settled nothing before the closing one (`Decoder.Completes`): a cut
in front of it is noticed as a text that ends too early, with the one
exception of a number that is cut in two, which is another number or
none at all. Behind the closing bracket there are only blanks, and
these make no difference.
-/

namespace Adorn

open Json Wire Decoder

/-! ## The decoders -/

theorem Expr.decoder_completes : Expr.decoder.Completes .closed :=
  Expr.kinds.decode_completes.bind fun _ _ _ => .lift fun _ => rfl

theorem Key.decoder_completes : Key.decoder.Completes .closed :=
  Key.kinds.decode_completes.bind fun _ _ _ => .lift fun _ => rfl

theorem Property.decoder_completes : Property.decoder.Completes .closed :=
  (record_completes _ (.cons Key.decoder_completes.loosen
    (.cons Expr.decoder_completes.loosen .nil))).bind fun _ _ _ => .pure rfl

theorem Expr.list_completes : (Decoder.list Expr.decoder).Completes .closed :=
  Decoder.list_completes Expr.decoder_completes.loosen

theorem Spec.decoder_completes : Spec.decoder.Completes .closed :=
  (record_completes _ (.cons text_completes
    (.cons (nullable_completes Expr.list_completes.loosen) .nil))).bind fun _ _ _ => .pure rfl

theorem Modifier.decoder_completes : Modifier.decoder.Completes .closed :=
  (record_completes _ (.cons text_completes
    (.cons (orDefault_completes Expr.list_completes.loosen []) .nil))).bind fun _ _ _ => .pure rfl

theorem ClassProperty.decoder_completes : ClassProperty.decoder.Completes .closed :=
  (record_completes _ (.cons text_completes
    (.cons Expr.decoder_completes.loosen .nil))).bind fun _ _ _ => .pure rfl

theorem Payload.decoder_completes : (k : Payload) → k.decoder.Completes .closed
  | .expr => Expr.decoder_completes
  | .exprs => Expr.list_completes
  | .key => Key.decoder_completes
  | .property => Property.decoder_completes
  | .modifier => Modifier.decoder_completes
  | .classProperty => ClassProperty.decoder_completes
  | .spec => Spec.decoder_completes
  | .specs => Decoder.list_completes Spec.decoder_completes.loosen

theorem Member.Draft.decoder_completes : Member.Draft.decoder.Completes .closed := by
  have hflag := orDefault_completes flag_completes false
  have hnames := (Decoder.list_completes (nullable_completes text_completes)).loosen
  have hmodifiers := (Decoder.list_completes Modifier.decoder_completes.loosen).loosen
  have hprops := nullable_completes (Decoder.list_completes text_completes).loosen
  exact (record_completes _ (.cons (orDefault_completes hnames [])
    (.cons (orDefault_completes Expr.list_completes.loosen []) (.cons hflag (.cons hflag
      (.cons (orDefault_completes hmodifiers []) (.cons hprops .nil))))))).bind
    fun _ _ _ => .pure rfl

theorem Options.decoder_completes : Options.decoder.Completes .closed := by
  have hnames : Options.namesDecoder.Completes .loose :=
    ((Decoder.list_completes text_completes).bind fun _ _ _ => .pure rfl).loosen
  exact (record_completes _ (.cons hnames (.cons hnames (.cons hnames
    (.cons text_completes .nil))))).bind fun _ _ _ => .pure rfl

/-! ## The documents -/

/-- The texts that are accepted end where they have to. One that is cut short gives the same value
if only blanks are missing; otherwise it is refused, because it ends too early or because a number
is cut in two. One that goes on gives the same value if only blanks follow; otherwise these are
trailing characters. -/
structure AcceptsWhole {ε α : Type} (accept : String → Except ε α) (malformed : Json.Error → ε) :
    Prop where
  cut : ∀ (p u : String) (x : α), accept (p ++ u) = .ok x →
    (Blanks u.toList → accept p = .ok x)
      ∧ (¬Blanks u.toList → ∃ e, accept p = .error (malformed e)
        ∧ (e.category = .eof ∨ CutsNumeral .outside p.toList u.toList))
  grown : ∀ (t u : String) (x : α), accept t = .ok x →
    (Blanks u.toList → accept (t ++ u) = .ok x)
      ∧ (¬Blanks u.toList → accept (t ++ u) = .error (malformed .trailingCharacters))

/-- Where a decoder notices every cut, so does what goes on with the decoded value. -/
theorem AcceptsWhole.of_completes {ε α β : Type} {accept : String → Except ε α}
    {malformed : Json.Error → ε} {d : Decoder β} {g : β → Except ε α} (hd : d.Completes .closed)
    (hok : ∀ {t y}, d.run t = .ok y → accept t = g y)
    (herror : ∀ {t e}, d.run t = .error e → accept t = .error (malformed e)) :
    AcceptsWhole accept malformed := by
  have hdecoded : ∀ {t x}, accept t = .ok x → ∃ y, d.run t = .ok y ∧ g y = .ok x := by
    intro t x hx
    cases hrun : d.run t with
    | error e =>
        rw [herror hrun] at hx
        cases hx
    | ok y => exact ⟨y, rfl, (hok hrun).symm.trans hx⟩
  constructor
  · intro p u x hx
    obtain ⟨y, hy, hg⟩ := hdecoded hx
    obtain ⟨hsame, hrefused⟩ := hd.run_cut hy
    refine ⟨fun hu => (hok (hsame hu)).trans hg, fun hu => ?_⟩
    obtain ⟨e, he, hwhy⟩ := hrefused hu
    exact ⟨e, herror he, hwhy⟩
  · intro t u x hx
    obtain ⟨y, hy, hg⟩ := hdecoded hx
    obtain ⟨hsame, hrefused⟩ := hd.run_append hy u
    exact ⟨fun hu => (hok (hsame hu)).trans hg, fun hu => herror (hrefused hu)⟩

theorem AcceptsWhole.run {α : Type} {d : Decoder α} (hd : d.Completes .closed) :
    AcceptsWhole d.run id :=
  .of_completes (g := .ok) hd id id

theorem AcceptsWhole.document {α : Type} {d : Decoder α} (hd : d.Completes .closed) :
    AcceptsWhole d.document .malformed :=
  .of_completes (g := .ok) hd (fun h => by rw [Decoder.document, h]; rfl)
    fun h => by rw [Decoder.document, h]; rfl

theorem AcceptsWhole.member (o : Options) : AcceptsWhole (Member.ofText o) .malformed := by
  refine .of_completes Member.Draft.decoder_completes
    (g := fun d => d.emptyModifier?.elim (.ok (d.resolve o)) fun i => .error (.emptyModifier i))
    (fun {t d} h => ?_) fun h => Member.ofText_malformed h o
  cases hmodifier : d.emptyModifier? with
  | some i => exact Member.ofText_blank h hmodifier o
  | none => exact Member.ofText_resolved h hmodifier o

/-- No document is accepted for a part of it: members under any options, options, and everything
that is read back from a text. -/
theorem documents_accepted_whole :
    (∀ o, AcceptsWhole (Member.ofText o) .malformed)
      ∧ AcceptsWhole Options.ofText .malformed
      ∧ AcceptsWhole Options.decoder.run id
      ∧ (∀ k : Payload, AcceptsWhole k.decoder.run id)
      ∧ Error.trailingCharacters.message = "trailing characters" :=
  ⟨.member, .document Options.decoder_completes, .run Options.decoder_completes,
    fun k => .run k.decoder_completes, rfl⟩

/-- Everything that a member must have, and a key of no meaning. -/
def earlyText : String :=
  "\x7b\"decoratorNames\":[\"a\"],\"n\":-1.5,"

/-- A field that may be left out. -/
def lateText : String :=
  "\"propList\":[\"p\"]\x7d"

theorem earlyText_refused :
    ∃ m, Member.ofText .default (earlyText ++ lateText) = .ok m
      ∧ Member.ofText .default (earlyText ++ lateText ++ "\n ") = .ok m
      ∧ Member.ofText .default (earlyText ++ lateText ++ "\n ]")
        = .error (.malformed .trailingCharacters)
      ∧ ∃ e, Member.ofText .default earlyText = .error (.malformed e) ∧ e.category = .eof := by
  have hsome : (Member.ofText .default (earlyText ++ lateText)).toOption.isSome = true := by
    decide +kernel
  obtain ⟨m, hm⟩ := Option.isSome_iff_exists.mp hsome
  have hok := eq_ok_of_toOption hm
  obtain ⟨hcut, hgrown⟩ := documents_accepted_whole.1 .default
  obtain ⟨e, he, hwhy⟩ := (hcut _ _ m hok).2 (by simp [Blanks, lateText, isSpace])
  refine ⟨m, hok, (hgrown _ _ m hok).1 (by simp [Blanks, isSpace]),
    (hgrown _ _ m hok).2 (by simp [Blanks, isSpace]), e, he, ?_⟩
  -- What is missing begins with a quote, and no numeral holds one.
  rcases hwhy with heof | ⟨a, n, n', b, numeral, -, hu, -, hn', -, htext⟩
  · exact heof
  · cases n' with
    | nil => exact absurd rfl hn'
    | cons c n' =>
        have hc : '"' = c := (List.cons.inj hu).1
        exact absurd hc.symm (htext.not_quote c (by simp))

end Adorn
