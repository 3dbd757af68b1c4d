import Adorn.Json.Error

/-!
# Readers

A reader takes characters off the front of a text and gives a value, or
fails with the first cause it meets. Nothing is read twice and nothing
is read ahead, so of two faults the earlier is always the one reported.

`Reader.loop` is the one place where a reader repeats itself: each round
of a loop takes at least one character, so the text it starts with
bounds the number of rounds.
-/

namespace Adorn.Json

/-- A reader of `α`. -/
abbrev Reader (α : Type) := StateT (List Char) (Except Error) α

namespace Reader

variable {α σ : Type}

/-- Rounds of `step`, until one of them gives a result; there is one round for each character of
`budget`. -/
def iterate (step : σ → Reader (σ ⊕ α)) :
    (budget : List Char) → σ → List Char → Except Error (α × List Char)
  | [], _, _ => .error .endOfValue
  | _ :: budget, a, s =>
    match step a s with
    | .error e => .error e
    | .ok (.inl b, rest) => iterate step budget b rest
    | .ok (.inr x, rest) => .ok (x, rest)

/-- Repeats `step` from `a` until it gives a result. Every round but the last takes a character, so
the text with one more character is budget enough. -/
def loop (step : σ → Reader (σ ⊕ α)) (a : σ) : Reader α :=
  fun s => iterate step (' ' :: s) a s

/-- Every round that goes on takes at least one character. -/
def Consumes (step : σ → Reader (σ ⊕ α)) : Prop :=
  ∀ a s b rest, step a s = .ok (.inl b, rest) → rest.length < s.length

/-- What is left of a budget that is larger than the text makes no difference. -/
theorem iterate_congr {step : σ → Reader (σ ⊕ α)} (hstep : Consumes step) :
    (B C : List Char) → (a : σ) → (s : List Char) → s.length < B.length → s.length < C.length →
      iterate step B a s = iterate step C a s
  | [], _, _, _, hB, _ => absurd hB (Nat.not_lt_zero _)
  | _ :: _, [], _, _, _, hC => absurd hC (Nat.not_lt_zero _)
  | _ :: B, _ :: C, a, s, hB, hC => by
      simp only [iterate]
      split
      · rfl
      · rename_i b rest heq
        have hrest := hstep a s b rest heq
        simp only [List.length_cons] at hB hC
        exact iterate_congr hstep B C b rest (by omega) (by omega)
      · rfl

/-- A loop goes on from where a round left it. -/
theorem loop_next {step : σ → Reader (σ ⊕ α)} (hstep : Consumes step) {a b : σ}
    {s rest : List Char} (h : step a s = .ok (.inl b, rest)) :
    loop step a s = loop step b rest := by
  have hrest := hstep a s b rest h
  unfold loop
  rw [iterate, h]
  exact iterate_congr hstep _ _ _ _ hrest (by simp)

theorem loop_done {step : σ → Reader (σ ⊕ α)} {a : σ} {x : α} {s rest : List Char}
    (h : step a s = .ok (.inr x, rest)) : loop step a s = .ok (x, rest) := by
  unfold loop
  rw [iterate, h]

theorem loop_error {step : σ → Reader (σ ⊕ α)} {a : σ} {e : Error} {s : List Char}
    (h : step a s = .error e) : loop step a s = .error e := by
  unfold loop
  rw [iterate, h]

end Reader

/-! ## Characters -/

/-- The blanks that may stand between tokens. -/
def isSpace (c : Char) : Bool :=
  c == ' ' || c == '\n' || c == '\t' || c == '\r'

/-- The next character, which stays in the text. -/
def look : Reader (Option Char) :=
  fun s => .ok (s.head?, s)

/-- The next character after any blanks; only the blanks are taken. -/
def peek : Reader (Option Char) :=
  fun s => .ok ((s.dropWhile isSpace).head?, s.dropWhile isSpace)

/-- Takes the next character, which has been seen. -/
def advance : Reader Unit :=
  fun s => .ok ((), s.tail)

/-- Takes the next character, or fails with `short` if there is none. -/
def next (short : Error) : Reader Char
  | [] => .error short
  | c :: rest => .ok (c, rest)

/-- Takes what is left of a word whose first character has been taken. -/
def word : List Char → Reader Unit
  | [] => pure ()
  | c :: cs => do
    if (← next .endOfValue) = c then word cs else throw .wordExpected

/-- Runs a reader on a whole text; only blanks may be left. -/
def Reader.document {α : Type} (r : Reader α) (text : String) : Except Error α := do
  let (a, rest) ← r text.toList
  if rest.all isSpace then return a else throw .trailingCharacters

end Adorn.Json
