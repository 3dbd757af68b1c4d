import Adorn.Proofs.Json.Yields
import Adorn.Proofs.Wire.Nodes
import Adorn.Wire.Tagged

/-!
# What the levels of a decoder allow

A decoder may enter as many arrays and objects as it has levels left.
Whatever the text, a tree that it reads nests no deeper than that, and
the parts of a tagged value less deep; a list or a record hands one
level less to the decoders of its parts.

What a record gives is told field by field. `Field.Draws` says where
the value of a field can come from, which is all that the parts of a
record have in common: an object may bring its entries in any order, a
list may be cut short, and unknown keys are passed over.
-/

namespace Adorn.Json

open Reader

/-- A tree nests no deeper than there are levels to read it. -/
theorem value_yields (levels : Nat) : (value levels).Yields fun v => v.nesting ≤ levels := by
  induction levels with
  | zero =>
      refine Yields.next fun f => ?_
      cases f with
      | scalar s => exact Yields.pure (Nat.le_refl 0)
      | sequence | map => exact Yields.throw _
  | succ levels ih =>
      refine Yields.next fun f => ?_
      cases f with
      | scalar s => exact Yields.pure (Nat.zero_le _)
      | sequence =>
          refine Yields.next fun _ => Yields.bind (Yields.items ih true) fun vs hvs => ?_
          refine Yields.pure ?_
          rw [Value.nesting]
          exact Nat.succ_le_succ (Wire.nestingItems_le hvs)
      | map =>
          refine Yields.next fun _ => Yields.bind (Yields.entries ih) fun es hes => ?_
          refine Yields.pure ?_
          rw [Value.nesting]
          exact Nat.succ_le_succ (Wire.nestingEntries_le hes)

end Adorn.Json

namespace Adorn.Wire

open Json Reader

/-! ## Tagged values -/

namespace Tagged

variable {κ : Type} (t : Tagged κ)

theorem openStep_yields (levels : Nat) {state : Open κ}
    (hstate : ∀ e ∈ state.entries.toList, e.2.nesting ≤ levels) :
    (t.openStep levels state).Yields
      (Sum.elim (fun state => ∀ e ∈ state.entries.toList, e.2.nesting ≤ levels)
        fun r => r.2.nesting ≤ levels) := by
  refine Yields.next fun more => ?_
  split
  · refine Yields.next fun k => ?_
    split
    · split
      · exact Yields.throw _
      · exact Yields.next fun _ => Yields.next fun tag => Yields.pure hstate
    · refine Yields.next fun _ => Yields.bind (value_yields levels) fun v hv => Yields.pure ?_
      intro e he
      rw [Array.toList_push, List.mem_append, List.mem_singleton] at he
      rcases he with he | rfl
      · exact hstate e he
      · exact hv
  · split
    · exact Yields.throw _
    · exact Yields.next fun _ => Yields.pure (nestingEntries_le hstate)

theorem listed_yields (levels : Nat) : (t.listed levels).Yields fun r => r.2.nesting ≤ levels := by
  refine Yields.next fun more => ?_
  split
  · refine Yields.next fun k => Yields.bind (Yields.items (value_yields levels) false) ?_
    exact fun vs hvs => Yields.pure (nestingItems_le hvs)
  · exact Yields.throw _

end Tagged

/-! ## Decoders -/

namespace Decoder

variable {α β : Type} {P : α → Prop} {Q : β → Prop} {levels : Nat}

theorem bind_yields {d : Decoder α} {f : α → Decoder β} (hd : (d levels).Yields P)
    (hf : ∀ a, P a → (f a levels).Yields Q) : ((d >>= f) levels).Yields Q :=
  Yields.bind hd hf

theorem next_yields {d : Decoder α} {f : α → Decoder β} (hf : ∀ a, (f a levels).Yields Q) :
    ((d >>= f) levels).Yields Q :=
  Yields.next hf

/-- What stands inside an array or object is read with one level less. -/
theorem inside_yields {d : Decoder α} (hd : ∀ l, levels = l + 1 → (d l).Yields P) :
    (inside d levels).Yields P := by
  cases levels with
  | zero => exact Yields.throw _
  | succ l => exact Yields.next fun _ => hd l rfl

/-- So are the items of a list. -/
theorem list_yields {d : Decoder α} {R : Nat → α → Prop} (hd : ∀ l, (d l).Yields (R l)) :
    (list d levels).Yields fun xs => ∃ l, levels = l + 1 ∧ ∀ x ∈ xs, R l x := by
  refine next_yields fun f => ?_
  cases f with
  | scalar s | map => exact Yields.throw _
  | sequence =>
      refine inside_yields fun l hl s xs rest hrun => ⟨l, hl, ?_⟩
      exact Yields.items (hd l) true s xs rest hrun

/-- A value that may be null is null or what its decoder gives. -/
theorem nullable_yields {d : Decoder α} (hd : (d levels).Yields P) :
    (nullable d levels).Yields fun x => ∀ a, x = some a → P a := by
  refine next_yields fun c => ?_
  split
  · exact next_yields fun _ => next_yields fun _ => Yields.pure fun a ha => nomatch ha
  · refine bind_yields hd fun a ha => Yields.pure ?_
    rintro b ⟨⟩
    exact ha

theorem orDefault_yields {d : Decoder α} (hd : (d levels).Yields P) {default : α}
    (hdefault : P default) : (orDefault d default levels).Yields P := by
  refine bind_yields (nullable_yields hd) fun x hx => Yields.pure ?_
  cases x with
  | none => exact hdefault
  | some a => exact hx a rfl

end Decoder

/-- The parts of a tagged value nest less deep than there are levels. -/
theorem Tagged.decode_yields {κ : Type} (t : Tagged κ) (levels : Nat) :
    (t.decode levels).Yields fun r => r.2.nesting < levels := by
  refine Decoder.next_yields fun f => ?_
  cases f with
  | scalar s => exact Yields.throw _
  | sequence =>
      refine Decoder.inside_yields fun l hl s r rest hrun => ?_
      have hparts := t.listed_yields l s r rest hrun
      omega
  | map =>
      refine Decoder.inside_yields fun l hl s r rest hrun => ?_
      have hempty : ∀ e ∈ (#[] : Array (String × Value)).toList, e.2.nesting ≤ l := by simp
      have hparts := Yields.loop (fun _ hstate => t.openStep_yields l hstate) hempty s r rest hrun
      omega

/-! ## Fields -/

section

variable {m : Type → Type} (P : (f : Field m) → f.Ty → Prop)

def Tuple.All : (fs : List (Field m)) → Tuple fs → Prop
  | [], _ => True
  | f :: fs, (x, t) => P f x ∧ Tuple.All fs t

def Draft.All : (fs : List (Field m)) → Draft fs → Prop
  | [], _ => True
  | f :: fs, (y, d) => (∀ x, y = some x → P f x) ∧ Draft.All fs d

variable {P}

theorem Draft.all_empty : (fs : List (Field m)) → Draft.All P fs (Draft.empty fs)
  | [] => trivial
  | _ :: fs => ⟨(fun _ h => nomatch h), Draft.all_empty fs⟩

/-- A field that is free can be stored. -/
theorem Draft.All.store {k : String} {g : Field m} {x : g.Ty} (hx : P g x) :
    {fs : List (Field m)} → {d : Draft fs} → {store : g.Ty → Draft fs} → Draft.All P fs d →
      Draft.place fs k d = .free g store → Draft.All P fs (store x)
  | [], _, _, _, hplace => nomatch hplace
  | f :: fs, (y, d), store, ⟨hy, hd⟩, hplace => by
      rw [Draft.place] at hplace
      by_cases hk : k = f.key
      · rw [if_pos hk] at hplace
        split at hplace
        · cases hplace
        · cases hplace
          refine ⟨?_, hd⟩
          rintro z ⟨⟩
          exact hx
      · rw [if_neg hk] at hplace
        split at hplace
        · cases hplace
        · cases hplace
        · rename_i g' store' hfree
          cases hplace
          exact ⟨hy, Draft.All.store hx hd hfree⟩

/-- The defaults are filled in for the fields that have not been read. -/
theorem Draft.All.finish (habsent : ∀ (f : Field m) x, f.absent = some x → P f x) :
    {fs : List (Field m)} → {d : Draft fs} → {t : Tuple fs} → Draft.All P fs d →
      Draft.finish fs d = .ok t → Tuple.All P fs t
  | [], _, _, _, _ => trivial
  | f :: fs, (y, d), (x, t), ⟨hy, hd⟩, hfinish => by
      cases y with
      | some y =>
          obtain ⟨u, hu, ⟨⟩⟩ := bind_eq_ok.mp hfinish
          exact ⟨hy x rfl, Draft.All.finish habsent hd hu⟩
      | none =>
          cases hf : f.absent with
          | none =>
              simp only [Draft.finish, hf] at hfinish
              cases hfinish
          | some y =>
              simp only [Draft.finish, hf] at hfinish
              obtain ⟨u, hu, ⟨⟩⟩ := bind_eq_ok.mp hfinish
              exact ⟨habsent f x hf, Draft.All.finish habsent hd hu⟩

end

/-- Where the value of a field can come from: it is read somewhere, or it is the default of a field
that was left out or cut off. -/
def Field.Draws (levels : Nat) (f : Field Decoder) (x : f.Ty) : Prop :=
  (∃ s rest, f.read levels s = .ok (x, rest)) ∨ f.absent = some x ∨ f.cut = some x

theorem Field.Draws.elim {levels : Nat} {f : Field Decoder} {x : f.Ty} {P : f.Ty → Prop}
    (h : f.Draws levels x) (hread : (f.read levels).Yields P)
    (habsent : ∀ y, f.absent = some y → P y) (hcut : ∀ y, f.cut = some y → P y) : P x := by
  rcases h with ⟨s, rest, hrun⟩ | hx | hx
  · exact hread s x rest hrun
  · exact habsent x hx
  · exact hcut x hx

/-! ## Records -/

namespace Decoder

theorem fieldStep_yields {fs : List (Field Decoder)} {levels : Nat} {state : Bool × Draft fs}
    (hstate : Draft.All (Field.Draws levels) fs state.2) :
    (fieldStep fs levels state).Yields
      (Sum.elim (fun state => Draft.All (Field.Draws levels) fs state.2)
        (Tuple.All (Field.Draws levels) fs)) := by
  refine Yields.next fun more => ?_
  split
  · refine Yields.next fun k => ?_
    split
    · exact Yields.next fun _ => Yields.next fun _ => Yields.pure hstate
    · exact Yields.throw _
    · rename_i f store hplace
      have hread : (f.read levels).Yields (f.Draws levels) :=
        fun s x rest hrun => Or.inl ⟨s, rest, hrun⟩
      exact Yields.next fun _ => Yields.bind hread fun x hx => Yields.pure (hstate.store hx hplace)
  · have hfinish : ∀ t, Draft.finish fs state.2 = .ok t → Tuple.All (Field.Draws levels) fs t :=
      fun t ht => hstate.finish (fun f x hx => Or.inr (Or.inl hx)) ht
    exact Yields.bind (Yields.lift hfinish) fun t ht => Yields.next fun _ => Yields.pure ht

theorem positional_yields (title : Title) (total levels : Nat) :
    (fs : List (Field Decoder)) → (index : Nat) →
      (positional title total fs index levels).Yields (Tuple.All (Field.Draws levels) fs)
  | [], _ => Yields.pure trivial
  | f :: fs, index => by
      have hrest := positional_yields title total levels fs (index + 1)
      refine next_yields fun more => ?_
      split
      · have hread : (f.read levels).Yields (f.Draws levels) :=
          fun s x rest hrun => Or.inl ⟨s, rest, hrun⟩
        exact bind_yields hread fun x hx => bind_yields hrest fun t ht => Yields.pure ⟨hx, ht⟩
      · cases hcut : f.cut with
        | none => exact Yields.throw _
        | some x =>
            exact bind_yields hrest fun t ht => Yields.pure ⟨Or.inr (Or.inr hcut), ht⟩

/-- The fields of a record are read with one level less than the record. -/
theorem record_yields (name : String) (fs : List (Field Decoder)) (levels : Nat) :
    (record name fs levels).Yields
      fun t => ∃ l, levels = l + 1 ∧ Tuple.All (Field.Draws l) fs t := by
  refine next_yields fun f => ?_
  cases f with
  | scalar s => exact Yields.throw _
  | sequence =>
      refine inside_yields fun l hl => ?_
      refine bind_yields (positional_yields _ _ l fs 0) fun t ht => next_yields fun _ => ?_
      exact Yields.pure ⟨l, hl, ht⟩
  | map =>
      refine inside_yields fun l hl s t rest hrun => ⟨l, hl, ?_⟩
      exact Yields.loop (fun _ hstate => fieldStep_yields hstate) (Draft.all_empty fs) s t rest hrun

end Decoder

end Adorn.Wire
