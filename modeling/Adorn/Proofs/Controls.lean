import Adorn.Decorator.Render
import Mathlib.Tactic.SplitIfs

/-!
# Control characters in written text

Strings are escaped and every other piece of text is written as it is,
so a control character of a written list of decorators stands in one of
the latter pieces or ends a line between two decorators.
`Expr.verbatim` lists the pieces that are written as they are, at any
depth, and `Expr.count_onto` carries the count through all kinds of
expressions: commas, brackets and escaped strings add nothing to it.

So a list of decorators has as many lines as decorators exactly if no
such piece holds a line end, and then each line is one of them.
-/

namespace Adorn

open Text (isControl)

/-! ## Verbatim text -/

mutual

/-- The pieces of text that are written as they are, at any depth. -/
def Expr.verbatim : Expr → List String
  | .string _ | .boolean _ | .null => []
  | .number t | .template t | .identifier t | .raw t => [t]
  | .array es => Expr.verbatimAll es
  | .object ps => Property.verbatimAll ps
  | .call f es => f.verbatim ++ Expr.verbatimAll es
  | .access e p => e.verbatim ++ [p]
  | .function n ps b => n.toList ++ (ps ++ [b])
  | .arrow ps b => ps ++ [b]

def Expr.verbatimAll : List Expr → List String
  | [] => []
  | e :: es => e.verbatim ++ Expr.verbatimAll es

def Property.verbatim : Property → List String
  | .mk k e => k.verbatim ++ e.verbatim

def Property.verbatimAll : List Property → List String
  | [] => []
  | p :: ps => p.verbatim ++ Property.verbatimAll ps

def Key.verbatim : Key → List String
  | .identifier n => [n]
  | .string _ => []
  | .computed e => e.verbatim

end

def Spec.verbatim (s : Spec) : List String :=
  s.name :: Expr.verbatimAll s.args

def Decorators.verbatim (d : Decorators) : List String :=
  d.toList.flatMap Spec.verbatim

/-- How often a character occurs in some texts. -/
def occurrences (c : Char) (ts : List String) : Nat :=
  (ts.flatMap String.toList).count c

section

variable (c : Char)

@[simp] theorem occurrences_nil : occurrences c [] = 0 := rfl

@[simp] theorem occurrences_cons (t : String) (ts : List String) :
    occurrences c (t :: ts) = t.toList.count c + occurrences c ts := by
  rw [occurrences, List.flatMap_cons, List.count_append, occurrences]

@[simp] theorem occurrences_append (ts us : List String) :
    occurrences c (ts ++ us) = occurrences c ts + occurrences c us := by
  rw [occurrences, List.flatMap_append, List.count_append, occurrences, occurrences]

theorem occurrences_eq_zero {ts : List String} :
    occurrences c ts = 0 ↔ ∀ t ∈ ts, c ∉ t.toList := by
  simp [occurrences, List.count_eq_zero]

end

/-! ## Text without control characters -/

/-- Whether no control character stands in the text. -/
def isClean (p : List Char) : Bool :=
  p.all fun d => !isControl d

theorem isClean_iff {p : List Char} : isClean p = true ↔ ∀ d ∈ p, isControl d = false := by
  simp [isClean]

theorem isControl_hexDigit {n : Nat} (h : n < 16) : isControl (Text.hexDigit n) = false := by
  have hall : ∀ n < 16, isControl (Text.hexDigit n) = false := by decide
  exact hall n h

theorem isClean_hex4 (n : Nat) : isClean (Text.hex4 n) = true := by
  have hdigit : ∀ m, isControl (Text.hexDigit (m % 16)) = false :=
    fun m => isControl_hexDigit (Nat.mod_lt m (by decide))
  simp [isClean, Text.hex4, hdigit]

/-- A control character never stands for itself in a written string. -/
theorem isClean_writtenChar (d : Char) : isClean (writtenChar d) = true := by
  unfold writtenChar
  split_ifs with _ _ _ _ _ hcontrol
  · rfl
  · rfl
  · rfl
  · rfl
  · rfl
  · have hhex := isClean_hex4 d.toNat
    rw [isClean] at hhex ⊢
    rw [List.all_append, hhex]
    rfl
  · simpa [isClean] using hcontrol

theorem isClean_writtenString (s : String) : isClean (writtenString s) = true := by
  have hchars : ∀ d ∈ s.toList.flatMap writtenChar, isControl d = false := by
    intro d hd
    obtain ⟨e, -, hmem⟩ := List.mem_flatMap.mp hd
    exact isClean_iff.mp (isClean_writtenChar e) d hmem
  rw [isClean, writtenString, List.all_append, List.all_cons, ← isClean, isClean_iff.mpr hchars]
  rfl

/-! ## Counting

Only the pieces that are written as they are contribute to the count of
a control character. -/

section

variable {c : Char} (hc : isControl c = true)

include hc

theorem not_mem_clean {p : List Char} (hp : isClean p = true) : c ∉ p := by
  intro hmem
  have hfalse := isClean_iff.mp hp c hmem
  rw [hc] at hfalse
  cases hfalse

theorem count_clean {p : List Char} (hp : isClean p = true) (rest : List Char) :
    (p ++ rest).count c = rest.count c := by
  rw [List.count_append, List.count_eq_zero.mpr (not_mem_clean hc hp), Nat.zero_add]

theorem count_mark {d : Char} (hd : isControl d = false) (rest : List Char) :
    (d :: rest).count c = rest.count c := by
  have hclean : isClean [d] = true := by simp [isClean, hd]
  exact count_clean hc hclean rest

theorem count_commaSeparated : (ps : List (List Char)) →
    (commaSeparated ps).count c = ps.flatten.count c
  | [] => rfl
  | [p] => by simp [commaSeparated]
  | p :: q :: ps => by
      rw [commaSeparated, List.flatten_cons, List.count_append, List.count_append,
        count_mark hc rfl, count_mark hc rfl, count_commaSeparated (q :: ps)]
      exact List.cons_ne_nil q ps

theorem count_writtenParams (ps : List String) :
    (writtenParams ps).count c = occurrences c ps := by
  rw [writtenParams, List.cons_append, count_mark hc rfl, List.count_append,
    count_commaSeparated hc, count_mark hc rfl, List.count_nil, Nat.add_zero, occurrences,
    List.flatMap_def]

theorem count_writtenFunction (n : Option String) (ps : List String) (b : String) :
    (writtenFunction n ps b).count c = occurrences c (n.toList ++ (ps ++ [b])) := by
  have hname : (n.getD "").toList.count c = occurrences c n.toList := by
    cases n <;> simp
  have hword : isClean "function ".toList = true := by decide +kernel
  unfold writtenFunction
  -- The word is only known to be clean from here on, lest it be evaluated time and again.
  generalize "function ".toList = word at hword ⊢
  rw [List.append_assoc, List.append_assoc, count_clean hc hword, List.count_append,
    List.count_append, count_writtenParams hc, count_mark hc rfl, hname]
  simp

theorem count_writtenArrow (ps : List String) (b : String) :
    (writtenArrow ps b).count c = occurrences c (ps ++ [b]) := by
  rw [writtenArrow, List.append_assoc, List.count_append, count_writtenParams hc,
    count_clean hc (by decide +kernel)]
  simp

mutual

/-- A control character in front of the rest comes from a piece that is written as it is. -/
theorem Expr.count_onto : (e : Expr) → (rest : List Char) →
    (e.onto rest).count c = occurrences c e.verbatim + rest.count c
  | .string s, rest => by
      rw [Expr.onto, count_clean hc (isClean_writtenString s), Expr.verbatim]
      simp
  | .boolean true, rest | .boolean false, rest | .null, rest | .object [], rest => by
      rw [Expr.onto, count_clean hc (by decide)]
      simp [Expr.verbatim, Property.verbatimAll]
  | .number t, rest | .identifier t, rest | .raw t, rest => by
      rw [Expr.onto, List.count_append, Expr.verbatim]
      simp
  | .template q, rest => by
      rw [Expr.onto, count_mark hc rfl, List.count_append, count_mark hc rfl, Expr.verbatim]
      simp
  | .array es, rest => by
      rw [Expr.onto, count_mark hc rfl, Expr.count_listOnto es, count_mark hc rfl, Expr.verbatim]
  | .object (p :: ps), rest => by
      rw [Expr.onto, count_clean hc (by decide), Property.count_listOnto (p :: ps),
        count_clean hc (by decide), Expr.verbatim]
      exact List.cons_ne_nil p ps
  | .call f es, rest => by
      rw [Expr.onto, Expr.count_onto f, count_mark hc rfl, Expr.count_listOnto es,
        count_mark hc rfl, Expr.verbatim, occurrences_append, Nat.add_assoc]
  | .access e p, rest => by
      rw [Expr.onto, Expr.count_onto e, count_mark hc rfl, List.count_append, Expr.verbatim]
      simp [Nat.add_assoc]
  | .function n ps b, rest => by
      rw [Expr.onto, List.count_append, count_writtenFunction hc, Expr.verbatim]
  | .arrow ps b, rest => by
      rw [Expr.onto, List.count_append, count_writtenArrow hc, Expr.verbatim]

theorem Expr.count_listOnto : (es : List Expr) → (rest : List Char) →
    (Expr.listOnto es rest).count c = occurrences c (Expr.verbatimAll es) + rest.count c
  | [], rest => by simp [Expr.listOnto, Expr.verbatimAll]
  | [e], rest => by
      rw [Expr.listOnto, Expr.count_onto e]
      simp [Expr.verbatimAll]
  | e :: f :: es, rest => by
      rw [Expr.listOnto, Expr.verbatimAll, occurrences_append, Expr.count_onto e,
        count_mark hc rfl, count_mark hc rfl, Expr.count_listOnto (f :: es), Nat.add_assoc]
      exact List.cons_ne_nil f es

theorem Property.count_onto (p : Property) (rest : List Char) :
    (p.onto rest).count c = occurrences c p.verbatim + rest.count c := by
  cases p with
  | mk k e =>
      rw [Property.onto, Key.count_onto k, count_mark hc rfl, count_mark hc rfl,
        Expr.count_onto e, Property.verbatim, occurrences_append, Nat.add_assoc]

theorem Property.count_listOnto : (ps : List Property) → (rest : List Char) →
    (Expr.propertiesOnto ps rest).count c
      = occurrences c (Property.verbatimAll ps) + rest.count c
  | [], rest => by simp [Expr.propertiesOnto, Property.verbatimAll]
  | [p], rest => by
      rw [Expr.propertiesOnto, Property.count_onto p]
      simp [Property.verbatimAll]
  | p :: q :: ps, rest => by
      rw [Expr.propertiesOnto, Property.verbatimAll, occurrences_append, Property.count_onto p,
        count_mark hc rfl, count_mark hc rfl, Property.count_listOnto (q :: ps), Nat.add_assoc]
      exact List.cons_ne_nil q ps

theorem Key.count_onto : (k : Key) → (rest : List Char) →
    (k.onto rest).count c = occurrences c k.verbatim + rest.count c
  | .identifier n, rest => by
      rw [Key.onto, List.count_append, Key.verbatim]
      simp
  | .string s, rest => by
      rw [Key.onto, count_clean hc (isClean_writtenString s), Key.verbatim]
      simp
  | .computed e, rest => by
      rw [Key.onto, count_mark hc rfl, Expr.count_onto e, count_mark hc rfl, Key.verbatim]

end

/-! ## Decorators and their lines -/

theorem Spec.count_chars (s : Spec) : s.chars.count c = occurrences c s.verbatim := by
  obtain ⟨name, arguments⟩ := s
  rw [Spec.chars, List.cons_append, count_mark hc rfl, List.count_append, Spec.verbatim,
    occurrences_cons]
  cases arguments with
  | none => simp [Spec.args, Expr.verbatimAll]
  | some es =>
      simp only [Expr.argumentChars]
      rw [count_mark hc rfl, Expr.count_listOnto hc, count_mark hc rfl, List.count_nil,
        Nat.add_zero]
      rfl

end

theorem count_lineSeparated (c : Char) : (ps : List (List Char)) →
    (lineSeparated ps).count c = (if c = '\n' then ps.length - 1 else 0) + ps.flatten.count c
  | [] => by simp [lineSeparated]
  | [p] => by simp [lineSeparated]
  | p :: q :: ps => by
      rw [lineSeparated, List.flatten_cons, List.count_append, List.count_append, List.count_cons,
        count_lineSeparated c (q :: ps)]
      · by_cases hc : c = '\n'
        · subst hc
          simp only [if_true, beq_self_eq_true, List.length_cons]
          omega
        · have hne : '\n' ≠ c := fun h => hc h.symm
          simp [hc, hne]
      · exact List.cons_ne_nil q ps

theorem Decorators.count_chars {c : Char} (hc : isControl c = true) (d : Decorators) :
    d.chars.count c = (if c = '\n' then d.length - 1 else 0) + occurrences c d.verbatim := by
  have hspecs : ∀ ss : List Spec, (ss.map Spec.chars).flatten.count c
      = occurrences c (ss.flatMap Spec.verbatim) := by
    intro ss
    induction ss with
    | nil => rfl
    | cons s ss ih =>
        rw [List.map_cons, List.flatten_cons, List.count_append, Spec.count_chars hc, ih,
          List.flatMap_cons, occurrences_append]
  rw [Decorators.chars, count_lineSeparated, hspecs, List.length_map]
  rfl

/-- A text has one line more than line ends. -/
theorem length_splitOn_line (cs : List Char) :
    (cs.splitOn '\n').length = cs.count '\n' + 1 := by
  induction cs with
  | nil => rfl
  | cons d cs ih =>
      rw [List.splitOn_eq_splitOnP] at ih ⊢
      rw [List.splitOnP_cons_eq_if_modifyHead, List.count_cons]
      split
      · rw [List.length_cons, ih]
      · rw [List.length_modifyHead, ih, Nat.add_zero]

theorem lineSeparated_eq_intercalate : (ps : List (List Char)) →
    lineSeparated ps = ['\n'].intercalate ps
  | [] => rfl
  | [p] => by simp [lineSeparated, List.intercalate]
  | p :: q :: ps => by
      rw [lineSeparated, lineSeparated_eq_intercalate (q :: ps), List.intercalate_cons_cons,
        List.append_assoc, List.singleton_append]
      exact List.cons_ne_nil q ps

/-- Control characters of written decorators come from the pieces that are written as they are, and
from the line ends between decorators. Strings have none of them. So there are as many lines as
decorators exactly if no such piece holds a line end, and then the lines are the decorators. -/
theorem Decorators.render_controls (d : Decorators) :
    (∀ c, isControl c = true →
      d.render.toList.count c
        = (if c = '\n' then d.length - 1 else 0) + occurrences c d.verbatim
      ∧ ∀ s, c ∉ writtenString s)
    ∧ ((d.render.toList.splitOn '\n').length = d.length ↔ ∀ t ∈ d.verbatim, '\n' ∉ t.toList)
    ∧ ((∀ t ∈ d.verbatim, '\n' ∉ t.toList) →
      d.render.toList.splitOn '\n' = d.toList.map fun s => s.render.toList) := by
  have htext : d.render.toList = d.chars := String.toList_ofList
  have hspec : ∀ s : Spec, s.render.toList = s.chars := fun _ => String.toList_ofList
  simp only [htext, hspec]
  refine ⟨fun c hc => ⟨Decorators.count_chars hc d, fun s => ?_⟩, ?_, fun hlines => ?_⟩
  · exact not_mem_clean hc (isClean_writtenString s)
  · have hcount := Decorators.count_chars (c := '\n') (by decide) d
    have hpos : 0 < d.length := Nat.succ_pos _
    rw [if_pos rfl] at hcount
    rw [length_splitOn_line, ← occurrences_eq_zero]
    omega
  · rw [Decorators.chars, lineSeparated_eq_intercalate]
    refine List.splitOn_intercalate '\n' ?_ (by simp [Decorators.toList])
    intro p hp
    obtain ⟨s, hs, rfl⟩ := List.mem_map.mp hp
    rw [← List.count_eq_zero, Spec.count_chars (by decide), occurrences_eq_zero]
    exact fun t ht => hlines t (List.mem_flatMap.mpr ⟨s, hs, ht⟩)

/-- Tabs in a template, in a computed key and in a body; line ends and more tabs in strings only. -/
def tabbed : Decorators where
  first := .call "computed" [.string "a\n\tb", .template "\t", .object
    [.mk (.computed (.raw "\tk")) (.function none ["p"] "\x7b\treturn\x7d"),
      .mk (.string "\t\n") .null]]
  others := [.identifier "tag"]

theorem tabbed_controls :
    isControl '\t' = true ∧ tabbed.render.toList.count '\t' = 3
      ∧ isControl '\n' = true ∧ tabbed.render.toList.count '\n' = 1
      ∧ (∀ t ∈ tabbed.verbatim, '\n' ∉ t.toList)
      ∧ (tabbed.render.toList.splitOn '\n').length = 2
      ∧ tabbed.render.toList.splitOn '\n' = tabbed.toList.map fun s => s.render.toList := by
  obtain ⟨hcounts, hlength, hlines⟩ := Decorators.render_controls tabbed
  have htab : occurrences '\t' tabbed.verbatim = 3 := by decide +kernel
  have hline : occurrences '\n' tabbed.verbatim = 0 := by decide +kernel
  have hone := (occurrences_eq_zero '\n').mp hline
  have htabs := (hcounts '\t' rfl).1
  have hends := (hcounts '\n' rfl).1
  rw [htab] at htabs
  rw [hline] at hends
  exact ⟨rfl, htabs, rfl, hends, hone, hlength.mpr hone, hlines hone⟩

end Adorn
