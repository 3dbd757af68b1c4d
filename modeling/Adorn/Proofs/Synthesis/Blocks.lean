import Adorn.Synthesis.Dispatch
import Mathlib.Algebra.Ring.Nat

/-!
# Decorators block by block

The decorators of a member come in blocks, one for each name that is
not blank. A block starts with the decorator that the name itself
stands for; behind a called name it goes on with the modifiers of the
member. `Member.synthesize_value` says that synthesis gives these
blocks one after another, so where a decorator stands is a matter of
the sizes of the blocks before it (`Member.synthesize_getElem?`).
-/

namespace Adorn

/-! ## Names and modifiers -/

namespace Name

def isCall : Name → Bool
  | .call _ => true
  | .binding _ | .marker _ => false

def isBinding : Name → Bool
  | .binding _ => true
  | .marker _ | .call _ => false

end Name

/-- The decorator that a modifier turns into. -/
structure Modifier.Gives (modifier : Modifier) (s : Spec) : Prop where
  name : s.name = modifier.property
  bare : modifier.args = [] → s.arguments = none
  called : modifier.args ≠ [] → s.arguments = some modifier.args

theorem Modifier.gives_decorator (modifier : Modifier) :
    modifier.Gives (Rules.modifierDecorator modifier) := by
  obtain ⟨property, args⟩ := modifier
  cases args with
  | nil => exact ⟨rfl, fun _ => rfl, fun h => absurd rfl h⟩
  | cons e es => exact ⟨rfl, nofun, fun _ => rfl⟩

namespace Member

/-- The names that are not blank, in their order. -/
def actionable (m : Member) : List Name :=
  m.names.filter fun n => !Text.isBlankText n.text

theorem mem_actionable {m : Member} {n : Name} :
    n ∈ m.actionable ↔ n ∈ m.names ∧ Text.isBlankText n.text = false := by
  rw [actionable, List.mem_filter, Bool.not_eq_true']

theorem actionable_eq_nil {m : Member} :
    m.actionable = [] ↔ ∀ n ∈ m.names, Text.isBlankText n.text = true := by
  simp only [actionable, List.filter_eq_nil_iff, Bool.not_eq_true', Bool.not_eq_false]

/-! ## One block -/

/-- The decorators of one name of a member that is not volatile. -/
def block (m : Member) : Name → List Spec
  | .binding t => Rules.bindingDecorators (Text.trim t) m
  | .marker t => Rules.markerDecorators (some (Text.trim t))
  | .call t => .call (Text.trim t) m.decoratorArgs :: m.modifiers.map Rules.modifierDecorator

/-- The number of decorators in the block of a name. -/
def blockSize (m : Member) : Name → Nat
  | .binding _ | .marker _ => 1
  | .call _ => 1 + m.modifiers.length

/-- A binding is one decorator, which is called if there are properties. -/
theorem bindingDecorators_eq (name : String) (m : Member) :
    Rules.bindingDecorators name m
      = [⟨name, (m.props.filter (!·.isEmpty)).map (·.map .string)⟩] := by
  unfold Rules.bindingDecorators
  cases m.props with
  | none => rfl
  | some ps => cases ps <;> rfl

theorem length_block (m : Member) (n : Name) : (m.block n).length = m.blockSize n := by
  cases n with
  | binding t => rw [block, bindingDecorators_eq, blockSize, List.length_singleton]
  | marker t => rfl
  | call t => rw [block, blockSize, List.length_cons, List.length_map, Nat.add_comm]

theorem blockSize_pos (m : Member) (n : Name) : 0 < m.blockSize n := by
  cases n <;> simp only [blockSize] <;> omega

/-- The decorator that a name itself stands for. -/
structure Heads (m : Member) (n : Name) (s : Spec) : Prop where
  name : s.name = Text.trim n.text
  isCall : s.isCall = true ↔
    n.isCall = true ∨ n.isBinding = true ∧ ∃ props, m.props = some props ∧ props ≠ []
  called : n.isCall = true → s.arguments = some m.decoratorArgs
  bound : n.isBinding = true → ∀ props, m.props = some props → props ≠ [] →
    s.arguments = some (props.map .string)

theorem block_head (m : Member) (n : Name) : ∃ s, (m.block n)[0]? = some s ∧ m.Heads n s := by
  cases n with
  | binding t =>
      rw [block, bindingDecorators_eq]
      refine ⟨_, rfl, rfl, ?_, nofun, ?_⟩
      · cases m.props with
        | none => simp [Spec.isCall, Name.isCall]
        | some ps => cases ps <;> simp [Spec.isCall, Name.isCall, Name.isBinding]
      · intro _ props hprops hne
        cases props with
        | nil => exact absurd rfl hne
        | cons p ps =>
            show (m.props.filter (!·.isEmpty)).map (·.map Expr.string) = _
            rw [hprops]
            rfl
  | marker t =>
      refine ⟨_, rfl, rfl, ?_, nofun, nofun⟩
      simp [Spec.isCall, Spec.identifier, Name.isCall, Name.isBinding]
  | call t =>
      refine ⟨_, rfl, rfl, ?_, fun _ => rfl, nofun⟩
      simp [Spec.isCall, Spec.call, Name.isCall]

theorem block_modifier {m : Member} {n : Name} (hn : n.isCall = true) {j : Nat}
    {modifier : Modifier} (hj : m.modifiers[j]? = some modifier) :
    ∃ s, (m.block n)[j + 1]? = some s ∧ modifier.Gives s := by
  cases n with
  | binding t | marker t => cases hn
  | call t =>
      refine ⟨Rules.modifierDecorator modifier, ?_, modifier.gives_decorator⟩
      rw [block, List.getElem?_cons_succ, List.getElem?_map, hj]
      rfl

/-! ## All blocks -/

section

variable {m : Member}

/-- One name gives its block, and a blank one gives nothing. -/
theorem decoratorsFor_value (hm : m.isVolatile = false) (n : Name) :
    (m.decoratorsFor n).value = if Text.isBlankText n.text then [] else m.block n := by
  unfold decoratorsFor
  by_cases hblank : Text.isBlankText n.text = true
  · rw [if_pos hblank, if_pos hblank]
    rfl
  · rw [if_neg hblank, if_neg hblank]
    cases n with
    | binding t => rfl
    | marker t => rfl
    | call t =>
        have hrule : (Rules.callDecorators (Text.trim t) m).value = m.block (.call t) := by
          rw [Rules.callDecorators, if_neg (by simp [hm])]
          rfl
        exact hrule

theorem decoratorsForAll_value (hm : m.isVolatile = false) (ns : List Name) :
    (m.decoratorsForAll ns).value
      = (ns.filter fun n => !Text.isBlankText n.text).flatMap m.block := by
  induction ns with
  | nil => rfl
  | cons n ns ih =>
      have hstep : (m.decoratorsForAll (n :: ns)).value
          = (m.decoratorsFor n).value ++ (m.decoratorsForAll ns).value := rfl
      rw [hstep, ih, decoratorsFor_value hm]
      by_cases hblank : Text.isBlankText n.text = true
      · rw [if_pos hblank, List.filter_cons_of_neg (by simpa using hblank)]
        rfl
      · rw [if_neg hblank, List.filter_cons_of_pos (by simpa using hblank), List.flatMap_cons]

theorem synthesize_volatile (hm : m.isVolatile = true) : m.synthesize.value = [] := by
  rw [synthesize, if_pos hm]
  rfl

/-- The decorators of a member are the blocks of its names, one after another. -/
theorem synthesize_value (hm : m.isVolatile = false) :
    m.synthesize.value = m.actionable.flatMap m.block := by
  rw [synthesize, if_neg (by simp [hm])]
  exact decoratorsForAll_value hm m.names

theorem synthesize_eq_nil :
    m.synthesize.value = [] ↔
      m.isVolatile = true ∨ ∀ n ∈ m.names, Text.isBlankText n.text = true := by
  cases hm : m.isVolatile with
  | true => simp [synthesize_volatile hm]
  | false =>
      rw [synthesize_value hm, List.flatMap_eq_nil_iff, ← actionable_eq_nil]
      have hblock : ∀ n, m.block n ≠ [] := fun n hn => by
        have hpos := m.blockSize_pos n
        rw [← length_block, hn] at hpos
        exact absurd hpos (Nat.lt_irrefl 0)
      constructor
      · intro h
        exact Or.inr (List.eq_nil_iff_forall_not_mem.mpr fun n hn => hblock n (h n hn))
      · rintro (h | h)
        · cases h
        · simp [h]

end

/-! ## Where a block starts -/

/-- The number of decorators before the block of the `i`-th name that is not blank. -/
def blockStart (m : Member) (i : Nat) : Nat :=
  ((m.actionable.take i).map m.blockSize).sum

theorem length_blocks (m : Member) (ns : List Name) :
    (ns.flatMap m.block).length = (ns.map m.blockSize).sum := by
  rw [List.length_flatMap]
  simp only [length_block]

/-- What stands in the block of a name is found behind the blocks of the names before it. -/
theorem synthesize_getElem? {m : Member} (hm : m.isVolatile = false) {i : Nat} {n : Name}
    (hn : m.actionable[i]? = some n) {j : Nat} (hj : j < m.blockSize n) :
    m.synthesize.value[m.blockStart i + j]? = (m.block n)[j]? := by
  obtain ⟨hi, hget⟩ := List.getElem?_eq_some_iff.mp hn
  -- Only the names before `n` move its block, so the output is split around it.
  have hsplit : m.actionable = m.actionable.take i ++ n :: m.actionable.drop (i + 1) := by
    rw [← hget, ← List.drop_eq_getElem_cons hi, List.take_append_drop]
  have hstart : ((m.actionable.take i).flatMap m.block).length = m.blockStart i :=
    m.length_blocks _
  rw [← length_block] at hj
  rw [synthesize_value hm, hsplit, List.flatMap_append, List.flatMap_cons,
    List.getElem?_append_right (by omega), List.getElem?_append_left (by omega)]
  congr 1
  omega

/-- A member has no decorators exactly if it is volatile or all its names are blank. Otherwise its
decorators are laid out in blocks, whose sizes tell where each one starts: the name first, and behind
a called name the modifiers in their order. -/
theorem synthesize_layout (m : Member) :
    (m.synthesize.value = [] ↔
      m.isVolatile = true ∨ ∀ n ∈ m.names, Text.isBlankText n.text = true)
    ∧ (m.isVolatile = false →
      m.synthesize.value.length = (m.actionable.map m.blockSize).sum
      ∧ ∀ i n, m.actionable[i]? = some n →
        (∃ s, m.synthesize.value[m.blockStart i]? = some s ∧ m.Heads n s)
        ∧ (n.isCall = true → ∀ j modifier, m.modifiers[j]? = some modifier →
          ∃ s, m.synthesize.value[m.blockStart i + (j + 1)]? = some s ∧ modifier.Gives s)) := by
  refine ⟨synthesize_eq_nil, fun hm => ⟨?_, fun i n hn => ⟨?_, fun hcall j modifier hj => ?_⟩⟩⟩
  · rw [synthesize_value hm, length_blocks]
  · have hat := synthesize_getElem? hm hn (m.blockSize_pos n)
    rw [Nat.add_zero] at hat
    rw [hat]
    exact m.block_head n
  · have hsize : j + 1 < m.blockSize n := by
      obtain ⟨hlt, -⟩ := List.getElem?_eq_some_iff.mp hj
      cases n with
      | binding t | marker t => cases hcall
      | call t =>
          rw [blockSize]
          omega
    rw [synthesize_getElem? hm hn hsize]
    exact block_modifier hcall hj

/-- Two called names with a blank and a binding between them; each call repeats both modifiers. -/
def stacked : Member where
  names := [.call " computed ", .marker "\u2003", .binding "attribute", .call "on"]
  args := [.string "a", .arrow [] "a"]
  nonLiteral := true
  isVolatile := false
  modifiers := [⟨"readOnly", []⟩, ⟨"meta", [.null]⟩]
  props := some ["href"]

theorem stacked_layout :
    stacked.isVolatile = false ∧ stacked.synthesize.value.length = 7
      ∧ stacked.actionable[2]? = some (.call "on") ∧ stacked.blockStart 2 = 4
      ∧ (∃ s, stacked.synthesize.value[4]? = some s ∧ stacked.Heads (.call "on") s)
      ∧ ∃ s, stacked.synthesize.value[6]? = some s ∧ Modifier.Gives ⟨"meta", [.null]⟩ s := by
  obtain ⟨hlength, hblocks⟩ := (synthesize_layout stacked).2 rfl
  have hsizes : (stacked.actionable.map stacked.blockSize).sum = 7 := by decide +kernel
  have hstart : stacked.blockStart 2 = 4 := by decide +kernel
  have hname : stacked.actionable[2]? = some (.call "on") := by decide +kernel
  obtain ⟨hhead, hmodifiers⟩ := hblocks 2 (.call "on") hname
  have hmeta := hmodifiers rfl 1 ⟨"meta", [.null]⟩ rfl
  rw [hstart] at hhead hmeta
  exact ⟨rfl, hlength.trans hsizes, hname, hstart, hhead, hmeta⟩

end Member

end Adorn
