import Adorn.Json.Printer
import Adorn.Proofs.Json.Trees
import Mathlib.Tactic.SplitIfs

/-!
# The compact text is a spelling

The text that `Value.text` writes spells the tree it was written from,
as long as every number in the tree is an integer that fits a machine
word, signed or unsigned (`Value.Whole`, `Value.Whole.spelled`). A
double is left out: its digits are rounded once more when they are
read.
-/

namespace Adorn.Json

open Text (isDigit digitValue digitsValue)

/-! ## Strings -/

theorem hexValue?_hexDigit : ∀ {d : Nat}, d < 16 → Text.hexValue? (Text.hexDigit d) = some d := by
  decide

theorem hexValue4?_hex4 {n : Nat} (hn : n < 0x10000) :
    Text.hexValue4? (Text.hexDigit (n / 0x1000 % 16)) (Text.hexDigit (n / 0x100 % 16))
      (Text.hexDigit (n / 0x10 % 16)) (Text.hexDigit (n % 16)) = some n := by
  have hlt : ∀ m : Nat, m % 16 < 16 := fun m => Nat.mod_lt m (by decide)
  simp only [Text.hexValue4?, hexValue?_hexDigit (hlt _), Option.pure_def, Option.bind_eq_bind,
    Option.bind_some, Option.some.injEq]
  omega

/-- A character is spelled by its number, unless it takes a pair to spell it. -/
theorem charText_hex4 {c : Char} (h : c.toNat < 0xd800) :
    CharText c (['\\', 'u'] ++ Text.hex4 c.toNat) := by
  have hnumeric := CharText.numeric (hexValue4?_hex4 (n := c.toNat) (by omega))
    (by simp only [isLeading, Bool.and_eq_false_iff, decide_eq_false_iff_not]; omega)
    (by simp only [isTrailing, Bool.and_eq_false_iff, decide_eq_false_iff_not]; omega)
  rwa [Char.ofNat_toNat] at hnumeric

/-- Every character is spelled by its escaped form. -/
theorem charText_escapedChar (c : Char) : CharText c (escapedChar c) := by
  unfold escapedChar
  split_ifs with hquote hslash hback hfeed hline hreturn htab hcontrol
  · subst hquote; exact .short rfl
  · subst hslash; exact .short rfl
  · subst hback; exact .short rfl
  · subst hfeed; exact .short rfl
  · subst hline; exact .short rfl
  · subst hreturn; exact .short rfl
  · subst htab; exact .short rfl
  · exact charText_hex4 (by omega)
  · exact .plain hquote hslash hcontrol

theorem charsText_flatMap {f : Char → List Char} (h : ∀ c, CharText c (f c)) :
    (cs : List Char) → CharsText cs (cs.flatMap f)
  | [] => .nil
  | c :: cs => by
      rw [List.flatMap_cons]
      exact .cons (h c) (charsText_flatMap h cs)

theorem stringText_stringChars (s : String) : StringText s (stringChars s) :=
  .mk (charsText_flatMap charText_escapedChar s.toList)

/-! ## Integers -/

theorem isDigit_of_mem_toDigits {n : Nat} {c : Char} (h : c ∈ Nat.toDigits 10 n) :
    isDigit c = true := by
  have hdigit := Nat.isDigit_of_mem_toDigits (by decide) (by decide) h
  simp only [Char.isDigit, Bool.and_eq_true, decide_eq_true_eq] at hdigit
  simp only [isDigit, Bool.and_eq_true, decide_eq_true_eq]
  exact hdigit

theorem digits_toDigits (n : Nat) : Digits (Nat.toDigits 10 n) :=
  ⟨Nat.toDigits_ne_nil, fun _ => isDigit_of_mem_toDigits⟩

/-- A number other than zero has no leading zero. -/
theorem toDigits_ne_zero_cons (n : Nat) : n ≠ 0 → ∀ t, Nat.toDigits 10 n ≠ '0' :: t := by
  induction n using Nat.strongRecOn with
  | _ n ih =>
      intro hn t heq
      by_cases hlt : n < 10
      · rw [Nat.toDigits_of_lt_base hlt] at heq
        injection heq with hhead
        exact hn (Nat.digitChar_eq_zero.mp hhead)
      · rw [Nat.toDigits_of_base_le (by decide) (by omega)] at heq
        cases hfirst : Nat.toDigits 10 (n / 10) with
        | nil => exact Nat.toDigits_ne_nil hfirst
        | cons c cs =>
            rw [hfirst] at heq
            injection heq with hhead
            subst hhead
            exact ih (n / 10) (by omega) (by omega) cs hfirst

theorem toDigits_zero_alone (n : Nat) (d : Char) (ds : List Char) :
    Nat.toDigits 10 n ≠ '0' :: d :: ds := by
  cases n with
  | zero =>
      rw [Nat.toDigits_zero]
      simp
  | succ n => exact toDigits_ne_zero_cons (n + 1) (Nat.succ_ne_zero n) (d :: ds)

theorem digitsValue_toDigits (n : Nat) : digitsValue (Nat.toDigits 10 n) = n := by
  have hstep : ∀ (ds : List Char) (m : Nat),
      ds.foldl (fun n d => n * 10 + digitValue d) m = Nat.ofDigitChars 10 ds m := by
    intro ds
    induction ds with
    | nil => simp
    | cons d ds ih =>
        intro m
        rw [List.foldl_cons, ih, Nat.ofDigitChars_cons, Nat.mul_comm]
        rfl
  rw [digitsValue, hstep, Nat.ofDigitChars_ten_toDigits]

/-- The numeral that an integer is written as. -/
def numeralOf (n : Int) : Numeral where
  negative := decide (n < 0)
  whole := Nat.toDigits 10 n.natAbs
  fraction := none
  exponent := none

theorem toList_toString_int (n : Int) :
    (toString n).toList = signText (decide (n < 0)) ++ Nat.toDigits 10 n.natAbs := by
  rw [Int.toString_eq_repr, Int.repr_eq_if]
  by_cases h : 0 ≤ n
  · have hsign : decide (n < 0) = false := by simpa using h
    have habs : n.toNat = n.natAbs := by omega
    rw [if_pos h, hsign, habs, Nat.toList_repr]
    rfl
  · have hsign : decide (n < 0) = true := by simpa using h
    have habs : (-n).toNat = n.natAbs := by omega
    rw [if_neg h, hsign, habs, String.toList_append, Nat.toList_repr]
    rfl

theorem numeralText_toString (n : Int) : NumeralText (numeralOf n) (toString n).toList where
  whole := digits_toDigits _
  zero := toDigits_zero_alone _
  parts := ⟨[], [], .absent, .absent, by rw [toList_toString_int]; simp [numeralOf]⟩

/-- An integer that fits a word, signed or unsigned. -/
def Number.IsWord : Number → Prop
  | .integer n => -0x8000000000000000 ≤ n ∧ n < 0x10000000000000000
  | .float _ => False

theorem value_numeralOf {n : Int} (h : Number.IsWord (.integer n)) :
    (numeralOf n).value = .ok (.integer n) := by
  obtain ⟨hlow, hhigh⟩ := h
  have hwhole : digitsValue (numeralOf n).whole = n.natAbs := digitsValue_toDigits _
  have hbound : n.natAbs < Numeral.wordBound := by
    simp only [Numeral.wordBound]
    omega
  unfold Numeral.value
  rw [hwhole]
  simp only [numeralOf, Option.isNone_none, Bool.and_self, hbound, decide_true, if_true]
  by_cases hneg : n < 0
  · have hpos : 0 < n.natAbs ∧ n.natAbs ≤ Numeral.wordBound / 2 := by
      simp only [Numeral.wordBound]
      omega
    simp only [hneg, decide_true, not_true_eq_false, if_false, hpos, and_self, if_true]
    exact congrArg (fun m => Except.ok (Number.integer m)) (by omega)
  · simp only [hneg, decide_false, Bool.false_eq_true, not_false_eq_true, if_true]
    exact congrArg (fun m => Except.ok (Number.integer m)) (by omega)

/-! ## Trees -/

mutual

/-- Every number of the tree is an integer that fits a word. -/
def Value.Whole : Value → Prop
  | .scalar (.number x) => x.IsWord
  | .scalar _ => True
  | .array vs => WholeItems vs
  | .object es => WholeEntries es

def WholeItems : List Value → Prop
  | [] => True
  | v :: vs => v.Whole ∧ WholeItems vs

def WholeEntries : List (String × Value) → Prop
  | [] => True
  | (_, v) :: es => v.Whole ∧ WholeEntries es

end

theorem scalarText_chars {s : Scalar} (h : (Value.scalar s).Whole) : ScalarText s s.chars := by
  cases s with
  | null => exact .null
  | boolean b =>
      cases b with
      | true => exact .yes
      | false => exact .no
  | number x =>
      cases x with
      | integer n => exact .number (numeralText_toString n) (value_numeralOf h)
      | float x => exact h.elim
  | string s => exact .string (stringText_stringChars s)

/-- What is written behind an item of an array. -/
def itemsTail : List Value → List Char
  | [] => [']']
  | v :: vs => ',' :: (v.chars ++ itemsTail vs)

def entriesTail : List (String × Value) → List Char
  | [] => ['\x7d']
  | (k, v) :: es => ',' :: (stringChars k ++ ':' :: (v.chars ++ entriesTail es))

theorem itemsOnto_cons : (v : Value) → (vs : List Value) →
    itemsOnto (v :: vs) [']'] = v.chars ++ itemsTail vs
  | v, [] => by rw [itemsOnto, Value.onto_eq, itemsTail]
  | v, w :: vs => by
      have htail := itemsOnto_cons w vs
      simp only [itemsOnto] at htail ⊢
      rw [Value.onto_eq, itemsTail, ← htail]

theorem entriesOnto_cons : (k : String) → (v : Value) → (es : List (String × Value)) →
    entriesOnto ((k, v) :: es) ['\x7d'] = stringChars k ++ ':' :: (v.chars ++ entriesTail es)
  | k, v, [] => by rw [entriesOnto, Value.onto_eq, entriesTail]
  | k, v, (l, w) :: es => by
      have htail := entriesOnto_cons l w es
      simp only [entriesOnto] at htail ⊢
      rw [Value.onto_eq, entriesTail, ← htail]

theorem itemsText_tail : (vs : List Value) →
    ItemsText false (vs.map Value.chars) (itemsTail vs)
  | [] => .close .nil
  | _ :: vs => .next .nil .nil (itemsText_tail vs)

theorem entriesText_tail : (es : List (String × Value)) →
    EntriesText false (es.map fun e => (stringChars e.1, e.2.chars)) (entriesTail es)
  | [] => .close .nil
  | (_, _) :: es => .next .nil .nil .nil .nil (entriesText_tail es)

theorem itemsText_onto (vs : List Value) :
    ItemsText true (vs.map Value.chars) (itemsOnto vs [']']) := by
  cases vs with
  | nil => exact .close .nil
  | cons v vs =>
      rw [itemsOnto_cons]
      exact .first .nil (itemsText_tail vs)

theorem entriesText_onto (es : List (String × Value)) :
    EntriesText true (es.map fun e => (stringChars e.1, e.2.chars)) (entriesOnto es ['\x7d']) := by
  cases es with
  | nil => exact .close .nil
  | cons e es =>
      obtain ⟨k, v⟩ := e
      rw [entriesOnto_cons]
      exact .first .nil .nil .nil (entriesText_tail es)

mutual

/-- The compact text of a tree spells it. -/
theorem Value.Whole.spelled : ∀ {v : Value}, v.Whole → v.Spelled v.chars
  | .scalar s, h => by
      simp only [Value.Spelled, Value.chars, Value.onto, List.append_nil]
      exact scalarText_chars h
  | .array vs, h => by
      simp only [Value.Whole] at h
      simp only [Value.Spelled, Value.chars, Value.onto]
      exact ⟨_, _, rfl, itemsText_onto vs, WholeItems.spelled h⟩
  | .object es, h => by
      simp only [Value.Whole] at h
      simp only [Value.Spelled, Value.chars, Value.onto]
      exact ⟨_, _, rfl, entriesText_onto es, WholeEntries.spelled h⟩

theorem WholeItems.spelled : ∀ {vs : List Value}, WholeItems vs →
    SpelledItems vs (vs.map Value.chars)
  | [], _ => by simp [SpelledItems]
  | v :: vs, h => by
      simp only [WholeItems] at h
      simp only [SpelledItems]
      exact ⟨_, _, rfl, h.1.spelled, WholeItems.spelled h.2⟩

theorem WholeEntries.spelled : ∀ {es : List (String × Value)}, WholeEntries es →
    SpelledEntries es (es.map fun e => (stringChars e.1, e.2.chars))
  | [], _ => by simp [SpelledEntries]
  | (k, v) :: es, h => by
      simp only [WholeEntries] at h
      simp only [SpelledEntries]
      exact ⟨_, _, _, rfl, stringText_stringChars k, h.1.spelled, WholeEntries.spelled h.2⟩

end

end Adorn.Json
