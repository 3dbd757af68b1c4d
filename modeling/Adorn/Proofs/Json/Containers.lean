import Adorn.Json.Skip
import Adorn.Json.Tree
import Adorn.Proofs.Json.Tokens

/-!
# What arrays and objects settle

An array or an object ends with its closing bracket and with nothing
else, so it settles all that follows it. Its parts may be cut anywhere:
between them the text has to go on, and `moreItems` and `moreEntries`
say so. A value that is passed over leaves its brackets on a stack, and
each step of the pass settles what it takes (`skip_settles`).
-/

namespace Adorn.Json

variable {α : Type} {s : List Char}

/-! ## Parts -/

/-- Before an item, or before the bracket that closes an array. -/
def itemHold : Bool → Hold
  | true => .pending
  | false => .before ']'

theorem moreItems_settles (first : Bool) : Settles .start itemHold (moreItems first) s := by
  unfold moreItems
  refine .peek rfl rfl (fun c t hc => ?_) fun y => by cases y <;> rfl
  refine .ite (fun h => ?_) fun _ => .ite (fun _ => .pure rfl) fun _ => .ite (fun h => ?_) fun _ =>
    .throw _
  · subst h
    exact .pure rfl
  · subst h
    refine .behind (g := itemHold) (by decide) (fun t => .peek rfl rfl (fun d u _ => ?_)
      fun y => by cases y <;> rfl) fun y => by cases y <;> rfl
    exact .ite (fun _ => .throw _) fun _ => .pure rfl

/-- Before the quote of a key, or before the bracket that closes an object. -/
def entryHold : Bool → Hold
  | true => .before '"'
  | false => .before '\x7d'

theorem moreEntries_settles (first : Bool) : Settles .start entryHold (moreEntries first) s := by
  unfold moreEntries
  refine .peek rfl rfl (fun c t hc => ?_) fun y => by cases y <;> rfl
  refine .ite (fun h => ?_) fun _ => .ite (fun _ => .ite (fun h => ?_) fun _ => .throw _) fun _ =>
    .ite (fun h => ?_) fun _ => .throw _
  · subst h
    exact .pure rfl
  · subst h
    exact .pure rfl
  · subst h
    refine .behind (g := entryHold) (by decide) (fun t => .peek rfl rfl (fun d u _ => ?_)
      fun y => by cases y <;> rfl) fun y => by cases y <;> rfl
    refine .ite (fun hd => ?_) fun _ => .ite (fun _ => .throw _) fun _ => .throw _
    subst hd
    exact .pure rfl

theorem key_settles : Settles (.facing '"') (fun _ => .closed) key s :=
  .bind (.advance rfl) (fun _ _ => string_settles) fun _ _ => rfl

theorem colon_settles : Settles .start (fun _ => .closed) colon s := by
  unfold colon
  refine .peek rfl rfl (fun c t hc => ?_) fun _ => rfl
  refine .ite (fun h => ?_) fun _ => .throw _
  subst h
  exact .advance rfl

/-! ## Whole arrays and objects -/

section

variable {σ : Type}

/-- A round leaves a part behind, and the last one the closing bracket. -/
def partHold : σ ⊕ α → Hold
  | .inl _ => .loose
  | .inr _ => .closed

theorem partHold_of_item (more : Bool) (y : σ ⊕ α) :
    ((itemHold more).followedBy (partHold y)).covers (partHold y) = true := by
  cases more <;> cases y <;> rfl

theorem partHold_of_entry (more : Bool) (y : σ ⊕ α) :
    ((entryHold more).followedBy (partHold y)).covers (partHold y) = true := by
  cases more <;> cases y <;> rfl

theorem partHold_of_closed (y : σ ⊕ α) :
    (Hold.closed.followedBy (partHold y)).covers (partHold y) = true := by
  cases y <;> rfl

/-- The last round takes the closing bracket. -/
theorem lastPart_settles {c : Char} (hc : isSpace c = false ∧ c ≠ '"') (x : α) :
    Settles (.facing c) partHold (do advance; return (.inr x : σ ⊕ α)) s :=
  .behind (g := fun y => .still (partHold y).toPoint) hc (fun _ => .pure rfl)
    fun y => by cases y <;> rfl

end

theorem itemStep_settles {item : Reader α} (hitem : ∀ s, Settles .start (fun _ => .loose) item s)
    (state : Bool × Array α) : Settles .start partHold (itemStep item state) s := by
  refine .bind (moreItems_settles _) (fun more t => ?_) partHold_of_item
  cases more with
  | true => exact (hitem t).map fun _ => rfl
  | false => exact lastPart_settles (by decide) _

theorem items_settles {item : Reader α} (hitem : ∀ s, Settles .start (fun _ => .loose) item s)
    (first : Bool) : Settles .start (fun _ => .closed) (items item first) s :=
  .loop (fun state _ => itemStep_settles hitem state) (fun _ => ⟨rfl, rfl⟩) (fun _ _ => rfl) _ _

theorem entryStep_settles {value : Reader α}
    (hvalue : ∀ s, Settles .start (fun _ => .loose) value s) (state : Bool × Array (String × α)) :
    Settles .start partHold (entryStep value state) s := by
  refine .bind (moreEntries_settles _) (fun more t => ?_) partHold_of_entry
  cases more with
  | true =>
      refine .bind key_settles (fun l t => ?_) fun _ => partHold_of_closed
      refine .bind colon_settles (fun _ t => ?_) fun _ => partHold_of_closed
      exact (hvalue t).map fun _ => rfl
  | false => exact lastPart_settles (by decide) _

theorem entries_settles {value : Reader α}
    (hvalue : ∀ s, Settles .start (fun _ => .loose) value s) :
    Settles .start (fun _ => .closed) (entries value) s :=
  .loop (fun state _ => entryStep_settles hvalue state) (fun _ => ⟨rfl, rfl⟩) (fun _ _ => rfl) _ _

/-! ## Trees -/

theorem value_settles : (levels : Nat) → {s : List Char} →
    Settles .start (fun _ => .loose) (value levels) s
  | 0, s => by
      refine .form (g := fun _ => .pending) (fun _ _ => .pure rfl) (fun _ => .throw _)
        (fun _ => .throw _) (fun _ => rfl) fun _ => rfl
  | levels + 1, s => by
      refine .form (g := fun _ => .pending) (fun _ _ => .pure rfl) (fun _ => ?_) (fun _ => ?_)
        (fun _ => rfl) fun _ => rfl
      · refine .behind (g := fun _ => .closed) (by decide) (fun _ => ?_) fun _ => rfl
        exact (items_settles (fun _ => value_settles levels) true).map fun _ => rfl
      · refine .behind (g := fun _ => .closed) (by decide) (fun _ => ?_) fun _ => rfl
        exact (entries_settles fun _ => value_settles levels).map fun _ => rfl

/-! ## Passing over values -/

theorem skipScalar_settles {c : Char} (hc : isSpace c = false) :
    Settles (.facing c) (fun _ => .loose) (skipScalar c) s := by
  unfold skipScalar
  refine .ite (fun h => ?_) fun _ => .ite (fun h => ?_) fun _ => .ite (fun h => ?_) fun _ =>
    .ite (fun h => ?_) fun _ => .ite (fun _ => skipNumber_settles) fun _ => .throw _
  · subst h
    exact .behind (by decide) (fun _ => word_settles _ (by simp [isSpace])) fun _ => rfl
  · subst h
    exact .behind (by decide) (fun _ => word_settles _ (by simp [isSpace])) fun _ => rfl
  · subst h
    exact .behind (by decide) (fun _ => word_settles _ (by simp [isSpace])) fun _ => rfl
  · subst h
    exact .bind (.advance hc) (fun _ _ => skipString_settles) fun _ _ => rfl

theorem skipLabel_settles (b : Bracket) : Settles .start (fun _ => .pending) (skipLabel b) s := by
  cases b with
  | list => exact .pure rfl
  | object =>
      refine .peek rfl rfl (fun c t hc => ?_) fun _ => rfl
      refine .ite (fun _ => .of_error rfl) fun hquote => ?_
      obtain rfl : c = '"' := Decidable.not_not.mp hquote
      refine .bind (g := fun _ _ => .closed) (.advance hc) (fun _ t => ?_) fun _ _ => rfl
      exact .bind skipString_settles (fun _ t => colon_settles) fun _ _ => rfl

theorem Bracket.closing_spec (b : Bracket) : isSpace b.closing = false ∧ b.closing ≠ '"' := by
  cases b <;> decide

theorem Bracket.cut_category (b : Bracket) : b.cut.category = .eof := by
  cases b <;> rfl

theorem skipOpening_settles (b : Bracket) (inside : List Bracket) {c : Char}
    (hc : isSpace c = false ∧ c ≠ '"') :
    Settles (.facing c) (fun _ => .loose) (skipOpening b inside) s := by
  refine .behind (g := fun _ => .pending) hc (fun t => ?_) fun _ => rfl
  refine .peek rfl b.cut_category (fun d u hd => ?_) fun _ => rfl
  refine .ite (fun h => ?_) fun _ => ?_
  · subst h
    exact .behind (g := fun _ => .pending) b.closing_spec (fun _ => .pure rfl) fun _ => rfl
  · exact ((skipLabel_settles b).seen d).map fun _ => rfl

theorem skipSeparator_settles (b : Bracket) (inside : List Bracket) :
    Settles .start (fun _ => .loose) (skipSeparator b inside) s := by
  refine .peek rfl b.cut_category (fun c t hc => ?_) fun _ => rfl
  refine .ite (fun h => ?_) fun _ => .ite (fun h => ?_) fun _ => .throw _
  · subst h
    refine .behind (g := fun _ => .pending) (by decide) (fun _ => ?_) fun _ => rfl
    exact (skipLabel_settles b).map fun _ => rfl
  · subst h
    exact .behind (g := fun _ => .pending) b.closing_spec (fun _ => .pure rfl) fun _ => rfl

/-- A step of a pass takes something, until there is nothing left to take. -/
def passHold : Passage ⊕ Unit → Hold
  | .inl _ => .loose
  | .inr _ => .pending

theorem skipStep_settles (p : Passage) : Settles .start passHold (skipStep p) s := by
  match p with
  | .before inside =>
      refine .peek rfl rfl (fun c t hc => ?_) fun y => by cases y <;> rfl
      refine .ite (fun h => ?_) fun _ => .ite (fun h => ?_) fun _ => ?_
      · subst h
        exact (skipOpening_settles .list inside (by decide)).map fun _ => rfl
      · subst h
        exact (skipOpening_settles .object inside (by decide)).map fun _ => rfl
      · exact (skipScalar_settles hc).map fun _ => rfl
  | .after [] => exact .pure rfl
  | .after (b :: inside) => exact (skipSeparator_settles b inside).map fun _ => rfl

theorem skip_settles : Settles .start (fun _ => .pending) skip s :=
  .loop (fun p _ => skipStep_settles p) (fun _ => ⟨rfl, rfl⟩) (fun _ _ => rfl) _ _

end Adorn.Json
