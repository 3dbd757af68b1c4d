import Adorn.Decorator.Render
import Adorn.Proofs.Expr.Plain

/-!
# Plain decorators can be read back

A decorator is read up to the parenthesis or the line end behind its
name, and then by its arguments. When these are plain, the written form
of a list of decorators determines the list: its names, which of them
are called, where an argument ends and what each argument is.
-/

namespace Adorn

/-- A character that a name may hold without being cut short. -/
def inSpecName (c : Char) : Bool :=
  c != '(' && c != '\n'

/-- Whether the name holds no parenthesis that opens and no line end, and all arguments are
plain. -/
def Spec.isPlain (s : Spec) : Bool :=
  s.name.toList.all inSpecName && Expr.arePlain s.args

def Decorators.isPlain (d : Decorators) : Bool :=
  d.toList.all Spec.isPlain

/-! ## One decorator -/

/-- What stands behind the name of a decorator. -/
def Spec.behindName : Option (List Expr) → List Char → List Char
  | none, rest => rest
  | some es, rest => '(' :: Expr.listOnto es (')' :: rest)

theorem Spec.chars_append (s : Spec) (rest : List Char) :
    s.chars ++ rest = '@' :: (s.name.toList ++ Spec.behindName s.arguments rest) := by
  obtain ⟨name, arguments⟩ := s
  cases arguments with
  | none => simp [Spec.chars, Spec.behindName]
  | some es =>
      have hes := Expr.listOnto_append es [')'] rest
      simp only [List.singleton_append] at hes
      simp [Spec.chars, Spec.behindName, Expr.argumentChars, hes]

/-- The end of the text, or of the line. -/
def EndsLine (r : List Char) : Prop :=
  ∀ c t, r = c :: t → c = '\n'

theorem EndsLine.stops {r : List Char} (h : EndsLine r) (arguments : Option (List Expr)) :
    Stops inSpecName (Spec.behindName arguments r) := by
  cases arguments with
  | none =>
      intro c t hr
      rw [h c t hr]
      decide
  | some es => exact .cons (by decide)

/-- Two plain decorators that are written alike, up to the ends of their lines, are the same. -/
theorem Spec.cancel {s s' : Spec} {r r' : List Char} (hs : s.isPlain = true)
    (hs' : s'.isPlain = true) (hr : EndsLine r) (hr' : EndsLine r')
    (heq : s.chars ++ r = s'.chars ++ r') : s = s' ∧ r = r' := by
  obtain ⟨name, arguments⟩ := s
  obtain ⟨name', arguments'⟩ := s'
  rw [Spec.isPlain, Bool.and_eq_true] at hs hs'
  rw [Spec.chars_append, Spec.chars_append, List.cons.injEq] at heq
  obtain ⟨hname, hbehind⟩ :=
    Stops.cancel hs.1 hs'.1 (hr.stops arguments) (hr'.stops arguments') heq.2
  obtain rfl : name = name' := String.toList_inj.mp hname
  cases arguments with
  | none =>
      cases arguments' with
      | none => exact ⟨rfl, hbehind⟩
      | some es' => exact absurd (hr _ _ hbehind) (by decide)
  | some es =>
      cases arguments' with
      | none => exact absurd (hr' _ _ hbehind.symm) (by decide)
      | some es' =>
          obtain ⟨rfl, rfl⟩ := Expr.cancels_list es hs.2 hs'.2 rfl (List.cons.inj hbehind).2
          exact ⟨rfl, rfl⟩

/-! ## Lists of decorators -/

/-- What stands behind a decorator. -/
def Spec.behindLine : List Spec → List Char
  | [] => []
  | ss => '\n' :: lineSeparated (ss.map Spec.chars)

theorem Spec.lineSeparated_cons (s : Spec) (ss : List Spec) :
    lineSeparated ((s :: ss).map Spec.chars) = s.chars ++ Spec.behindLine ss := by
  cases ss with
  | nil => simp [lineSeparated, Spec.behindLine]
  | cons t ss => simp [lineSeparated, Spec.behindLine]

theorem Spec.endsLine_behindLine (ss : List Spec) : EndsLine (Spec.behindLine ss) := by
  cases ss with
  | nil => exact fun _ _ h => nomatch h
  | cons s ss =>
      intro c t h
      exact (List.cons.inj h).1.symm

theorem Spec.cancel_lines : (s : Spec) → (ss : List Spec) → {s' : Spec} → {ss' : List Spec} →
    (s :: ss).all Spec.isPlain = true → (s' :: ss').all Spec.isPlain = true →
    lineSeparated ((s :: ss).map Spec.chars) = lineSeparated ((s' :: ss').map Spec.chars) →
    s = s' ∧ ss = ss'
  | s, ss, s', ss', hs, hs', heq => by
      rw [List.all_cons, Bool.and_eq_true] at hs hs'
      rw [Spec.lineSeparated_cons, Spec.lineSeparated_cons] at heq
      obtain ⟨rfl, hbehind⟩ := Spec.cancel hs.1 hs'.1 (Spec.endsLine_behindLine ss)
        (Spec.endsLine_behindLine ss') heq
      refine ⟨rfl, ?_⟩
      cases ss with
      | nil =>
          cases ss' with
          | nil => rfl
          | cons t' ss' => cases hbehind
      | cons t ss =>
          cases ss' with
          | nil => cases hbehind
          | cons t' ss' =>
              obtain ⟨rfl, rfl⟩ := Spec.cancel_lines t ss hs.2 hs'.2 (List.cons.inj hbehind).2
              rfl

/-- The written form of plain decorators belongs to no other plain decorators. -/
theorem Decorators.render_eq_iff {d d' : Decorators} (hd : d.isPlain = true)
    (hd' : d'.isPlain = true) : d.render = d'.render ↔ d = d' := by
  refine ⟨fun heq => ?_, fun h => by rw [h]⟩
  have hchars : d.chars = d'.chars := String.ofList_injective heq
  obtain ⟨first, others⟩ := d
  obtain ⟨first', others'⟩ := d'
  obtain ⟨rfl, rfl⟩ := Spec.cancel_lines first others hd hd' hchars
  rfl

/-- A string full of brackets, a chain of suffixes, the three kinds of keys, and a bare name beside
an empty call. -/
def chained : Decorators where
  first := .call "computed" [.string "), ]\n\x7d\"",
    .call (.access (.call (.identifier "a") []) "b") [.number "007", .array []]]
  others := [.identifier "tag", .call "tag" [], .call "style" [.object
    [.mk (.identifier "null") .null, .mk (.string "k: ") (.object []),
      .mk (.computed (.array [.boolean true])) (.array [.array []])]]]

def chainedText : String :=
  "@computed(\"), ]\\n\x7d\\\"\", a().b(007, []))\n@tag\n@tag()\n" ++
    "@style(\x7b null: null, \"k: \": \x7b\x7d, [[true]]: [[]] \x7d)"

theorem chained_read_back : chained.isPlain = true ∧ chained.render = chainedText
    ∧ ∀ d : Decorators, d.isPlain = true → d.render = chainedText → d = chained := by
  have hplain : chained.isPlain = true := by decide
  have hrender : chained.render = chainedText := by decide +kernel
  refine ⟨hplain, hrender, fun d hd htext => ?_⟩
  exact (Decorators.render_eq_iff hd hplain).mp (htext.trans hrender.symm)

end Adorn
