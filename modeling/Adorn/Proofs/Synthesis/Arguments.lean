import Adorn.Proofs.Synthesis.Blocks
import Mathlib.Data.List.Basic
import Mathlib.Tactic.Ring

/-!
# Arguments accounted for

Every argument of a defining call either belongs to the decorator or is
the body of the member, and none is both. What is emitted is then a
matter of counting: a called name repeats the arguments of the call and
of all modifiers, a binding repeats the properties, and a marker has no
arguments. `Member.countP_emitted` is the account over all names.
-/

namespace Adorn.Member

/-- The arguments of a call are those of the decorator, followed by the body. -/
theorem decoratorArgs_append_body (m : Member) : m.decoratorArgs ++ m.body?.toList = m.args := by
  cases hflag : m.nonLiteral with
  | false => simp [decoratorArgs, body?, hflag]
  | true =>
      simp only [decoratorArgs, body?, hflag, if_true]
      cases hlast : m.args.getLast? with
      | none =>
          rw [List.getLast?_eq_none_iff.mp hlast]
          rfl
      | some e => exact List.dropLast_append_getLast? e hlast

/-- The arguments of all decorators of a member. -/
def emitted (m : Member) : List Expr :=
  m.synthesize.value.flatMap Spec.args

/-- The arguments of all modifiers. -/
def modifierArgs (m : Member) : List Expr :=
  m.modifiers.flatMap Modifier.args

/-- The properties as string literals. -/
def propLiterals (m : Member) : List Expr :=
  (m.props.getD []).map .string

theorem modifierDecorator_args (modifier : Modifier) :
    (Rules.modifierDecorator modifier).args = modifier.args := by
  obtain ⟨property, args⟩ := modifier
  cases args <;> rfl

theorem call_block_args (m : Member) (t : String) :
    (m.block (.call t)).flatMap Spec.args = m.decoratorArgs ++ m.modifierArgs := by
  rw [block, List.flatMap_cons, List.flatMap_map, modifierArgs]
  simp only [modifierDecorator_args]
  rfl

theorem binding_block_args (m : Member) (t : String) :
    (m.block (.binding t)).flatMap Spec.args = m.propLiterals := by
  rw [block, bindingDecorators_eq, propLiterals]
  cases m.props with
  | none => rfl
  | some ps => cases ps <;> simp [Spec.args, Option.filter]

theorem marker_block_args (m : Member) (t : String) :
    (m.block (.marker t)).flatMap Spec.args = [] := rfl

/-- What the blocks of some names hold: the arguments of the call and of the modifiers once for each
called name, and the properties once for each binding. -/
theorem countP_blocks (m : Member) (p : Expr → Bool) (ns : List Name) :
    ((ns.flatMap m.block).flatMap Spec.args).countP p
      = ns.countP Name.isCall * (m.decoratorArgs.countP p + m.modifierArgs.countP p)
        + ns.countP Name.isBinding * m.propLiterals.countP p := by
  induction ns with
  | nil => simp
  | cons n ns ih =>
      rw [List.flatMap_cons, List.flatMap_append, List.countP_append, ih, List.countP_cons,
        List.countP_cons]
      -- One more name adds its own block, and to one of the two counts at most.
      cases n with
      | binding t =>
          rw [binding_block_args]
          simp only [Name.isCall, Name.isBinding, if_true, Bool.false_eq_true, if_false]
          ring
      | marker t =>
          rw [marker_block_args]
          simp only [Name.isCall, Name.isBinding, Bool.false_eq_true, if_false]
          simp
      | call t =>
          rw [call_block_args, List.countP_append]
          simp only [Name.isCall, Name.isBinding, if_true, Bool.false_eq_true, if_false]
          ring

theorem countP_emitted {m : Member} (hm : m.isVolatile = false) (p : Expr → Bool) :
    m.emitted.countP p
      = m.actionable.countP Name.isCall * (m.decoratorArgs.countP p + m.modifierArgs.countP p)
        + m.actionable.countP Name.isBinding * m.propLiterals.countP p := by
  rw [emitted, synthesize_value hm, countP_blocks]

/-- A body is what is left of the arguments once those before it are taken away. -/
theorem args_eq_of_body {m : Member} {e : Expr} (h : m.body? = some e) :
    m.args = m.args.dropLast ++ [e] ∧ m.decoratorArgs = m.args.dropLast := by
  have hargs := m.decoratorArgs_append_body
  rw [h, Option.toList_some] at hargs
  have hinit : m.decoratorArgs = m.args.dropLast := by
    rw [← hargs, List.dropLast_concat]
  exact ⟨by rw [← hinit, hargs], hinit⟩

/-- No argument of a call is lost, doubled or leaked. Whatever is counted, the decorators hold the
arguments of the call and of the modifiers once per called name and the properties once per binding.
So a body, which is the last argument, is emitted as often as expressions equal to it stand at any
other place, and not on its own account. -/
theorem arguments_accounted (m : Member) :
    m.decoratorArgs ++ m.body?.toList = m.args
    ∧ (m.isVolatile = false →
      (∀ p : Expr → Bool, m.emitted.countP p
        = m.actionable.countP Name.isCall * (m.decoratorArgs.countP p + m.modifierArgs.countP p)
          + m.actionable.countP Name.isBinding * m.propLiterals.countP p)
      ∧ ∀ e, m.body? = some e → m.args = m.args.dropLast ++ [e] ∧ m.emitted.count e
        = m.actionable.countP Name.isCall * (m.args.dropLast.count e + m.modifierArgs.count e)
          + m.actionable.countP Name.isBinding * m.propLiterals.count e) := by
  refine ⟨m.decoratorArgs_append_body, fun hm => ⟨countP_emitted hm, fun e he => ?_⟩⟩
  obtain ⟨hlast, hinit⟩ := args_eq_of_body he
  have hcount := countP_emitted hm (· == e)
  rw [hinit] at hcount
  exact ⟨hlast, hcount⟩

/-- A member whose body stands among its arguments a second time, and whose other argument is also a
property. -/
def echoed : Member :=
  { stacked with args := [.arrow [] "a", .string "href", .arrow [] "a"] }

theorem echoed_accounted :
    echoed.isVolatile = false ∧ echoed.body? = some (.arrow [] "a")
      ∧ echoed.decoratorArgs ++ [.arrow [] "a"] = echoed.args
      ∧ echoed.emitted.countP (· == .string "href") = 3
      ∧ echoed.emitted.count (.arrow [] "a") = 2 := by
  obtain ⟨hargs, haccount⟩ := arguments_accounted echoed
  obtain ⟨hcounts, hbody⟩ := haccount rfl
  have hhref := hcounts (· == .string "href")
  obtain ⟨-, harrow⟩ := hbody (.arrow [] "a") rfl
  exact ⟨rfl, rfl, hargs, hhref.trans (by decide +kernel), harrow.trans (by decide +kernel)⟩

end Adorn.Member
