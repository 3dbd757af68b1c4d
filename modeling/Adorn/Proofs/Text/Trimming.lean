import Adorn.Text.Blank
import Mathlib.Data.List.TakeWhile

/-!
# Trimming

What is left of a text without the blanks around it. `Text.Stripped`
says so without a function: blanks on both sides, and no blank at
either end of what is between them. `Text.trim` finds the one text of
which this is true (`Text.trim_stripped`, `Text.Stripped.eq_trim`), so
more blanks around a text make no difference to it.
-/

namespace Adorn.Text

/-! ## Blank texts -/

/-- Nothing but blanks, or nothing at all. -/
def AllBlank (s : String) : Prop :=
  ∀ c ∈ s.toList, isBlank c = true

theorem trimChars_eq_nil {cs : List Char} :
    trimChars cs = [] ↔ ∀ c ∈ cs, isBlank c = true := by
  rw [trimChars, List.reverse_eq_nil_iff, List.dropWhile_eq_nil_iff]
  simp only [List.mem_reverse]
  constructor
  · intro h c hc
    rw [← @List.takeWhile_append_dropWhile _ isBlank cs, List.mem_append] at hc
    rcases hc with hc | hc
    · exact List.mem_takeWhile_imp hc
    · exact h c hc
  · intro h c hc
    exact h c ((List.dropWhile_sublist _).subset hc)

theorem isBlankText_iff {s : String} : isBlankText s = true ↔ AllBlank s := by
  rw [AllBlank, ← trimChars_eq_nil, isBlankText, trim, String.isEmpty_iff, ← String.toList_inj,
    String.toList_ofList]
  rfl

/-! ## Texts without the blanks around them -/

/-- `t` is what is left of `raw` without the blanks around it. -/
structure Stripped (raw t : String) : Prop where
  around : ∃ b b', (∀ c ∈ b, isBlank c = true) ∧ (∀ c ∈ b', isBlank c = true)
    ∧ raw.toList = b ++ (t.toList ++ b')
  first : ∀ c, t.toList.head? = some c → isBlank c = false
  last : ∀ c, t.toList.getLast? = some c → isBlank c = false

theorem isBlank_head_dropWhile {cs : List Char} {c : Char}
    (h : (cs.dropWhile isBlank).head? = some c) : isBlank c = false := by
  have hnot := List.head?_dropWhile_not isBlank cs
  rw [h] at hnot
  exact hnot

theorem trim_stripped (raw : String) : Stripped raw (trim raw) := by
  have htrim : (trim raw).toList = trimChars raw.toList := String.toList_ofList
  -- `front` is what the first pass of `trimChars` drops, `mid` what it leaves to the second.
  obtain ⟨front, hfront⟩ : ∃ front, front = raw.toList.takeWhile isBlank := ⟨_, rfl⟩
  obtain ⟨mid, hmid⟩ : ∃ mid, mid = raw.toList.dropWhile isBlank := ⟨_, rfl⟩
  have hraw : raw.toList = front ++ mid := by
    rw [hfront, hmid, List.takeWhile_append_dropWhile]
  have hsplit : mid = trimChars raw.toList ++ (mid.reverse.takeWhile isBlank).reverse := by
    rw [trimChars, ← hmid, ← List.reverse_append, List.takeWhile_append_dropWhile,
      List.reverse_reverse]
  refine ⟨⟨front, (mid.reverse.takeWhile isBlank).reverse, ?_, ?_, ?_⟩, fun c hc => ?_,
    fun c hc => ?_⟩
  · rw [hfront]
    exact fun c hc => List.mem_takeWhile_imp hc
  · exact fun c hc => List.mem_takeWhile_imp (List.mem_reverse.mp hc)
  · rw [htrim, ← hsplit, hraw]
  · rw [htrim] at hc
    have hhead : (raw.toList.dropWhile isBlank).head? = some c := by
      rw [← hmid, hsplit, List.head?_append, hc, Option.some_or]
    exact isBlank_head_dropWhile hhead
  · rw [htrim, trimChars, List.getLast?_reverse] at hc
    exact isBlank_head_dropWhile hc

theorem dropWhile_eq_self {cs : List Char} (h : ∀ c, cs.head? = some c → isBlank c = false) :
    cs.dropWhile isBlank = cs := by
  cases cs with
  | nil => rfl
  | cons c cs =>
      have hc := h c rfl
      rw [List.dropWhile_cons_of_neg (by simp [hc])]

/-- Nothing is left to trim of a text without blanks around it. -/
theorem Stripped.trim_eq {raw t : String} (h : Stripped raw t) : trim t = t := by
  have hlast : ∀ c, t.toList.reverse.head? = some c → isBlank c = false := by
    intro c hc
    rw [List.head?_reverse] at hc
    exact h.last c hc
  rw [trim, trimChars, dropWhile_eq_self h.first, dropWhile_eq_self hlast, List.reverse_reverse,
    String.ofList_toList]

theorem trim_trim (raw : String) : trim (trim raw) = trim raw :=
  (trim_stripped raw).trim_eq

theorem trim_ne_empty {s : String} : trim s ≠ "" ↔ isBlankText s = false := by
  rw [isBlankText, ne_eq, ← String.isEmpty_iff, Bool.not_eq_true]

/-- A text with a blank at one of its ends, or at both. -/
def HasBlankEdge (s : String) : Prop :=
  ∃ c, (s.toList.head? = some c ∨ s.toList.getLast? = some c) ∧ isBlank c = true

/-- Nothing that was trimmed has a blank at its ends. -/
theorem trim_ne_of_hasBlankEdge {s : String} (h : HasBlankEdge s) (raw : String) :
    trim raw ≠ s := by
  rintro rfl
  obtain ⟨c, hend, hblank⟩ := h
  have hclear : isBlank c = false :=
    hend.elim ((trim_stripped raw).first c) ((trim_stripped raw).last c)
  rw [hclear] at hblank
  cases hblank

/-- There is only one way to strip a text of the blanks around it. -/
theorem Stripped.eq_trim {raw t : String} (h : Stripped raw t) : trim raw = t := by
  obtain ⟨⟨b, b', hb, hb', hraw⟩, hfirst, hlast⟩ := h
  have hback : ∀ c ∈ b'.reverse, isBlank c = true := fun c hc => hb' c (List.mem_reverse.mp hc)
  have hchars : trimChars raw.toList = t.toList := by
    rw [trimChars, hraw, List.dropWhile_append_of_pos hb]
    cases ht : t.toList with
    | nil =>
        have hnone : b'.dropWhile isBlank = [] := List.dropWhile_eq_nil_iff.mpr hb'
        rw [List.nil_append, hnone]
        rfl
    | cons c cs =>
        have hhead : ∀ d, ((c :: cs) ++ b').head? = some d → isBlank d = false := by
          intro d hd
          exact hfirst d (by rw [ht]; exact hd)
        have hend : ∀ d, (c :: cs).reverse.head? = some d → isBlank d = false := by
          intro d hd
          rw [List.head?_reverse] at hd
          exact hlast d (by rw [ht]; exact hd)
        rw [dropWhile_eq_self hhead, List.reverse_append, List.dropWhile_append_of_pos hback,
          dropWhile_eq_self hend, List.reverse_reverse]
  rw [trim, hchars, String.ofList_toList]

theorem trim_padded {b b' : String} (hb : AllBlank b) (hb' : AllBlank b') (raw : String) :
    trim (b ++ raw ++ b') = trim raw := by
  obtain ⟨⟨f, k, hf, hk, hraw⟩, hfirst, hlast⟩ := trim_stripped raw
  refine Stripped.eq_trim ⟨⟨b.toList ++ f, k ++ b'.toList, ?_, ?_, ?_⟩, hfirst, hlast⟩
  · intro c hc
    exact (List.mem_append.mp hc).elim (hb c) (hf c)
  · intro c hc
    exact (List.mem_append.mp hc).elim (hk c) (hb' c)
  · simp only [String.toList_append, hraw, List.append_assoc]

end Adorn.Text
