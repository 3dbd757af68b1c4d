import Adorn.Proofs.Synthesis.Arguments
import Mathlib.Data.List.Induction

/-!
# Members put together step by step

In code a member starts with its names, and arguments, modifiers,
properties and the volatile flag are added in steps of any number and
order. Whether the last argument is the body is never set by hand: the
step that sets the arguments reads it off them, so the flag keeps up
with the arguments, and no literal is ever taken for a body.

`Member.MadeBy` tells what a run has made: the last arguments, the last
properties, the modifiers in their order and whether the member was
made volatile. One more step keeps it up (`Member.MadeBy.concat`), and
how the steps are interleaved leaves no trace (`Member.MadeBy.unique`).
-/

namespace Adorn.Member

/-! ## Runs -/

/-- What a member starts with: nothing, names, or tokens still to be resolved. -/
inductive Start where
  | empty
  | resolved (names : List Name)
  | tokens (o : Options) (raws : List String)

def Start.member : Start → Member
  | .empty => Member.empty
  | .resolved names => ofResolved names
  | .tokens o raws => (ofNames o raws).value

/-- One step of putting a member together. -/
inductive Step where
  | args (es : List Expr)
  | modifier (x : Modifier)
  | props (ps : List String)
  | volatile
  deriving DecidableEq

namespace Step

def apply (m : Member) : Step → Member
  | .args es => m.withArgs es
  | .modifier x => m.withModifier x
  | .props ps => m.withProps ps
  | .volatile => m.withVolatile

def args? : Step → Option (List Expr)
  | .args es => some es
  | _ => none

def modifier? : Step → Option Modifier
  | .modifier x => some x
  | _ => none

def props? : Step → Option (List String)
  | .props ps => some ps
  | _ => none

end Step

/-- The member that some steps make, one after another. -/
def build (m : Member) (steps : List Step) : Member :=
  steps.foldl Step.apply m

def Start.build (start : Start) (steps : List Step) : Member :=
  start.member.build steps

theorem build_concat (m : Member) (steps : List Step) (step : Step) :
    m.build (steps ++ [step]) = step.apply (m.build steps) := by
  rw [build, List.foldl_append, build]
  rfl

/-- A member starts with nothing but names. -/
theorem Start.member_eq (start : Start) : start.member = ofResolved start.member.names := by
  cases start <;> rfl

/-! ## What a run has made -/

/-- A member that was started with the names and made by the steps. Of the arguments and of the
properties the last ones count, and there is a body exactly if there are arguments and the last of
them is no literal. -/
structure MadeBy (names : List Name) (steps : List Step) (m : Member) : Prop where
  names : m.names = names
  args : m.args = (steps.filterMap Step.args?).getLast?.getD []
  nonLiteral : m.nonLiteral = true ↔ ∃ e, m.args.getLast? = some e ∧ e.isLiteral = false
  isVolatile : m.isVolatile = true ↔ Step.volatile ∈ steps
  modifiers : m.modifiers = steps.filterMap Step.modifier?
  props : m.props = (steps.filterMap Step.props?).getLast?

theorem withArgs_nonLiteral (m : Member) (es : List Expr) :
    (m.withArgs es).nonLiteral = true ↔ ∃ e, es.getLast? = some e ∧ e.isLiteral = false := by
  rw [withArgs]
  cases es.getLast? <;> simp

theorem MadeBy.nil (names : List Name) : MadeBy names [] (ofResolved names) where
  names := rfl
  args := rfl
  nonLiteral := by simp [ofResolved]
  isVolatile := by simp [ofResolved]
  modifiers := rfl
  props := rfl

/-- One more step. Only the one that sets the arguments touches them or the flag. -/
theorem MadeBy.concat {names : List Name} {steps : List Step} {m : Member}
    (h : MadeBy names steps m) (step : Step) :
    MadeBy names (steps ++ [step]) (step.apply m) := by
  cases step with
  | args es =>
      exact
        { names := h.names
          args := by simp [Step.apply, withArgs, Step.args?]
          nonLiteral := m.withArgs_nonLiteral es
          isVolatile := by simpa [Step.apply, withArgs] using h.isVolatile
          modifiers := by simp [Step.apply, withArgs, Step.modifier?, h.modifiers]
          props := by simp [Step.apply, withArgs, Step.props?, h.props] }
  | modifier x =>
      exact
        { names := h.names
          args := by simp [Step.apply, withModifier, Step.args?, h.args]
          nonLiteral := h.nonLiteral
          isVolatile := by simpa [Step.apply, withModifier] using h.isVolatile
          modifiers := by simp [Step.apply, withModifier, Step.modifier?, h.modifiers]
          props := by simp [Step.apply, withModifier, Step.props?, h.props] }
  | props ps =>
      exact
        { names := h.names
          args := by simp [Step.apply, withProps, Step.args?, h.args]
          nonLiteral := h.nonLiteral
          isVolatile := by simpa [Step.apply, withProps] using h.isVolatile
          modifiers := by simp [Step.apply, withProps, Step.modifier?, h.modifiers]
          props := by simp [Step.apply, withProps, Step.props?] }
  | volatile =>
      exact
        { names := h.names
          args := by simp [Step.apply, withVolatile, Step.args?, h.args]
          nonLiteral := h.nonLiteral
          isVolatile := by simp [Step.apply, withVolatile]
          modifiers := by simp [Step.apply, withVolatile, Step.modifier?, h.modifiers]
          props := by simp [Step.apply, withVolatile, Step.props?, h.props] }

theorem Start.madeBy (start : Start) (steps : List Step) :
    MadeBy start.member.names steps (start.build steps) := by
  induction steps using List.reverseRecOn with
  | nil =>
      have hstart : start.build [] = ofResolved start.member.names := start.member_eq
      rw [hstart]
      exact MadeBy.nil _
  | append_singleton steps step ih =>
      rw [Start.build, build_concat]
      exact ih.concat step

namespace MadeBy

variable {names : List Name} {steps steps' : List Step} {m m' : Member}

theorem body_not_literal (h : MadeBy names steps m) {e : Expr} (he : m.body? = some e) :
    e.isLiteral = false := by
  unfold body? at he
  split at he
  · rename_i hflag
    obtain ⟨e', hlast, hliteral⟩ := h.nonLiteral.mp hflag
    rw [he] at hlast
    cases hlast
    exact hliteral
  · cases he

/-- The literals among the arguments all belong to the decorator. -/
theorem literals_kept (h : MadeBy names steps m) :
    m.decoratorArgs.filter Expr.isLiteral = m.args.filter Expr.isLiteral := by
  have hbody : m.body?.toList.filter Expr.isLiteral = [] := by
    rw [List.filter_eq_nil_iff]
    intro e he
    rw [h.body_not_literal (Option.mem_toList.mp he)]
    exact Bool.false_ne_true
  rw [← m.decoratorArgs_append_body, List.filter_append, hbody, List.append_nil]

/-- Steps of one kind may be moved past those of the others. -/
theorem unique (h : MadeBy names steps m) (h' : MadeBy names steps' m')
    (hargs : steps.filterMap Step.args? = steps'.filterMap Step.args?)
    (hmodifiers : steps.filterMap Step.modifier? = steps'.filterMap Step.modifier?)
    (hprops : steps.filterMap Step.props? = steps'.filterMap Step.props?)
    (hvolatile : Step.volatile ∈ steps ↔ Step.volatile ∈ steps') : m = m' := by
  have hsame : m.args = m'.args := by rw [h.args, h'.args, hargs]
  have hflag : m.nonLiteral = m'.nonLiteral := by
    rw [Bool.eq_iff_iff, h.nonLiteral, h'.nonLiteral, hsame]
  have hleft : m.isVolatile = m'.isVolatile := by
    rw [Bool.eq_iff_iff, h.isVolatile, h'.isVolatile, hvolatile]
  have hnames := h.names.trans h'.names.symm
  have hchain := h.modifiers.trans (hmodifiers.trans h'.modifiers.symm)
  have hbound : m.props = m'.props := by rw [h.props, h'.props, hprops]
  cases m
  cases m'
  simp_all only

end MadeBy

/-- No literal is lost by putting a member together, whatever the steps and their order: the flag
tells of the last argument, a body is no literal, and the literals of the call are those of the
decorator. The member is told by the last arguments, the last properties, the modifiers in their
order and whether it was made volatile, and its names are those it started with. So steps that differ
only in how these are interleaved, or in how often the member was made volatile, make the same
member with the same decorators. -/
theorem Start.build_determined (start : Start) (steps : List Step) :
    MadeBy start.member.names steps (start.build steps)
    ∧ (∀ e, (start.build steps).body? = some e → e.isLiteral = false)
    ∧ (start.build steps).decoratorArgs.filter Expr.isLiteral
      = (start.build steps).args.filter Expr.isLiteral
    ∧ ∀ steps', steps.filterMap Step.args? = steps'.filterMap Step.args? →
      steps.filterMap Step.modifier? = steps'.filterMap Step.modifier? →
      steps.filterMap Step.props? = steps'.filterMap Step.props? →
      (Step.volatile ∈ steps ↔ Step.volatile ∈ steps') →
      start.build steps = start.build steps'
      ∧ (start.build steps).synthesize = (start.build steps').synthesize := by
  have hmade := start.madeBy steps
  refine ⟨hmade, fun e he => hmade.body_not_literal he, hmade.literals_kept, ?_⟩
  intro steps' hargs hmodifiers hprops hvolatile
  have heq := hmade.unique (start.madeBy steps') hargs hmodifiers hprops hvolatile
  exact ⟨heq, by rw [heq]⟩

/-- A body is set and then overwritten by a literal. -/
def overwritten : List Step :=
  [.args [.string "a", .arrow [] "a"], .volatile, .modifier ⟨"readOnly", []⟩, .args [.null],
    .modifier ⟨"meta", [.null]⟩]

/-- The same arguments and modifiers in another order, volatile twice. -/
def reordered : List Step :=
  [.modifier ⟨"readOnly", []⟩, .volatile, .modifier ⟨"meta", [.null]⟩,
    .args [.string "a", .arrow [] "a"], .args [.null], .volatile]

theorem overwritten_determined :
    ((Start.resolved [.call "computed"]).build [.args [.null, .arrow [] "a"]]).body?
        = some (.arrow [] "a")
      ∧ (Expr.arrow [] "a").isLiteral = false
      ∧ overwritten.filterMap Step.args? = reordered.filterMap Step.args?
      ∧ overwritten.filterMap Step.modifier? = reordered.filterMap Step.modifier?
      ∧ (Start.resolved [.call "computed"]).build overwritten
        = (Start.resolved [.call "computed"]).build reordered := by
  have hbody : ((Start.resolved [.call "computed"]).build [.args [.null, .arrow [] "a"]]).body?
      = some (.arrow [] "a") := rfl
  have hliteral := (Start.build_determined (.resolved [.call "computed"])
    [.args [.null, .arrow [] "a"]]).2.1 _ hbody
  have hsame := (Start.build_determined (.resolved [.call "computed"]) overwritten).2.2.2 reordered
    rfl rfl rfl (by simp [overwritten, reordered])
  exact ⟨hbody, hliteral, rfl, rfl, hsame.1⟩

end Adorn.Member
