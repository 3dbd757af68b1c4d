import Adorn.Proofs.Synthesis.Blocks
import Mathlib.Data.List.Induction

/-!
# Decorators attached again and again

A member starts bare, and decorators are attached to it any number of
times. What is attached replaces what was there, except that attaching
nothing leaves the member as it was. So the last list that is not empty
stays (`Decorated.attachAll_eq`), and where synthesis gives no
decorators its output may be attached at any time.

The lists that a member can have are those of `Decorators.ofList?`,
which makes one of every list that has a first decorator and of no
other (`Decorators.ofList?_eq_some`).
-/

namespace Adorn

/-! ## Lists that are not empty -/

namespace Decorators

/-- `ds` is the list `v`: there is a first decorator, and the decorators are those of `v` in their
order. -/
structure Holds (ds : Decorators) (v : List Spec) : Prop where
  nonempty : v ≠ []
  first : v[0]? = some ds.first
  toList : ds.toList = v
  length : ds.length = v.length

theorem holds_toList (ds : Decorators) : ds.Holds ds.toList where
  nonempty := List.cons_ne_nil _ _
  first := rfl
  toList := rfl
  length := rfl

theorem ofList?_toList (ds : Decorators) : ofList? ds.toList = some ds := rfl

theorem ofList?_eq_none {v : List Spec} : ofList? v = none ↔ v = [] := by
  cases v <;> simp [ofList?]

theorem ofList?_eq_some {v : List Spec} {ds : Decorators} : ofList? v = some ds ↔ ds.Holds v := by
  constructor
  · intro h
    cases v with
    | nil => cases h
    | cons s ss =>
        cases h
        exact holds_toList ⟨s, ss⟩
  · intro h
    rw [← h.toList]
    exact ds.ofList?_toList

end Decorators

/-! ## Runs -/

namespace Decorated

variable {α : Type}

/-- Attaches lists one after another. -/
def attachAll (d : Decorated α) (vs : List (List Spec)) : Decorated α :=
  vs.foldl attach d

theorem attachAll_concat (d : Decorated α) (vs : List (List Spec)) (v : List Spec) :
    d.attachAll (vs ++ [v]) = (d.attachAll vs).attach v := by
  rw [attachAll, List.foldl_append, attachAll]
  rfl

/-- Only the decorators are replaced, and only by others. -/
theorem attach_eq (d : Decorated α) (v : List Spec) :
    d.attach v = ⟨d.member, (Decorators.ofList? v).or d.decorators⟩ := by
  unfold attach
  cases Decorators.ofList? v <;> rfl

/-- The last list that is not empty stays. -/
theorem attachAll_eq (d : Decorated α) (vs : List (List Spec)) :
    d.attachAll vs
      = ⟨d.member, (vs.filterMap Decorators.ofList?).getLast?.or d.decorators⟩ := by
  induction vs using List.reverseRecOn with
  | nil => rfl
  | append_singleton vs v ih =>
      rw [attachAll_concat, ih, attach_eq, List.filterMap_append, List.getLast?_append,
        Option.or_assoc]
      congr 2
      cases hv : Decorators.ofList? v <;> simp [hv]

/-- A list stays if it is not empty and none but empty ones come after it. -/
theorem attachAll_eq_some {x : α} {vs : List (List Spec)} {ds : Decorators} :
    ((bare x).attachAll vs).decorators = some ds ↔
      ∃ before v after, vs = before ++ v :: after ∧ ds.Holds v ∧ ∀ w ∈ after, w = [] := by
  have hlast : ((bare x).attachAll vs).decorators = vs.reverse.findSome? Decorators.ofList? := by
    rw [attachAll_eq, bare, Option.or_none, List.getLast?_filterMap]
  rw [hlast, List.findSome?_eq_some_iff]
  simp only [Decorators.ofList?_eq_some, Decorators.ofList?_eq_none]
  constructor
  · rintro ⟨later, v, earlier, hsplit, hv, hempty⟩
    refine ⟨earlier.reverse, v, later.reverse, ?_, hv,
      fun w hw => hempty w (List.mem_reverse.mp hw)⟩
    rw [← List.reverse_reverse vs, hsplit]
    simp
  · rintro ⟨before, v, after, rfl, hv, hempty⟩
    exact ⟨after.reverse, v, before.reverse, by simp, hv,
      fun w hw => hempty w (List.mem_reverse.mp hw)⟩

theorem attachAll_eq_none {x : α} {vs : List (List Spec)} :
    ((bare x).attachAll vs).decorators = none ↔ ∀ v ∈ vs, v = [] := by
  rw [attachAll_eq, bare, Option.or_none, List.getLast?_eq_none_iff, List.filterMap_eq_nil_iff]
  simp only [Decorators.ofList?_eq_none]

/-- Attaching nothing, anywhere in a run. -/
theorem attachAll_insert_nil (d : Decorated α) (before after : List (List Spec)) :
    d.attachAll (before ++ [] :: after) = d.attachAll (before ++ after) := by
  simp only [attachAll, List.foldl_append, List.foldl_cons]
  rfl

/-- Whatever is attached to a bare member, in however many turns, the member itself stays. It has no
decorators exactly if nothing was ever attached, and else the last list that is not empty, as it is.
`Decorators.ofList?` refuses the empty list alone and keeps any other, so there always is a first
decorator, the one that the list starts with. What synthesis gives for a volatile member, or for one
all of whose names are blank, may be attached at any point and changes nothing. -/
theorem attachAll_bare (x : α) (vs : List (List Spec)) :
    ((bare x).attachAll vs).member = x
    ∧ (((bare x).attachAll vs).decorators = none ↔ ∀ v ∈ vs, v = [])
    ∧ (∀ ds, ((bare x).attachAll vs).decorators = some ds ↔
      ∃ before v after, vs = before ++ v :: after ∧ ds.Holds v ∧ ∀ w ∈ after, w = [])
    ∧ (∀ v, (Decorators.ofList? v = none ↔ v = [])
      ∧ ∀ ds, Decorators.ofList? v = some ds ↔ ds.Holds v)
    ∧ ∀ before after (m : Member), vs = before ++ after →
      m.isVolatile = true ∨ (∀ n ∈ m.names, Text.isBlankText n.text = true) →
      (bare x).attachAll (before ++ m.synthesize.value :: after) = (bare x).attachAll vs := by
  refine ⟨?_, attachAll_eq_none, fun ds => attachAll_eq_some,
    fun v => ⟨Decorators.ofList?_eq_none, fun ds => Decorators.ofList?_eq_some⟩, ?_⟩
  · rw [attachAll_eq, bare]
  · rintro before after m rfl hm
    rw [Member.synthesize_eq_nil.mpr hm]
    exact attachAll_insert_nil _ before after

/-- Two lists with nothing between them and nothing behind them. -/
def turns : List (List Spec) :=
  [[.identifier "action"], [], [.call "on" [.null], .identifier "readOnly"], []]

/-- A member that would be marked were it not volatile. -/
def spared : Member :=
  (Member.ofResolved [.marker "action"]).withVolatile

/-- A member whose one name is blank. -/
def nameless : Member :=
  Member.ofResolved [.call "\u2003"]

theorem turns_attached :
    ((bare "save").attachAll turns).decorators
        = some ⟨.call "on" [.null], [.identifier "readOnly"]⟩
      ∧ spared.isVolatile = true
      ∧ (bare "save").attachAll (turns ++ spared.synthesize.value :: [])
        = (bare "save").attachAll turns
      ∧ (∀ n ∈ nameless.names, Text.isBlankText n.text = true)
      ∧ (bare "save").attachAll ([] ++ nameless.synthesize.value :: turns)
        = (bare "save").attachAll turns := by
  obtain ⟨-, -, hsome, -, hinsert⟩ := attachAll_bare "save" turns
  have hblank : ∀ n ∈ nameless.names, Text.isBlankText n.text = true := by
    intro n hn
    rw [List.mem_singleton.mp hn]
    decide
  refine ⟨(hsome _).mpr ?_, rfl, hinsert turns [] spared (List.append_nil turns).symm (Or.inl rfl),
    hblank, hinsert [] turns nameless rfl (Or.inr hblank)⟩
  exact ⟨[[.identifier "action"], []], _, [[]], rfl, Decorators.holds_toList _, by simp⟩

end Decorated

end Adorn
