import Adorn.Expr.Decode
import Adorn.Expr.Encode
import Adorn.Proofs.Wire.Nodes
import Mathlib.Data.List.Forall2

/-!
# Trees that represent expressions

The format of expressions as a relation between trees and expressions,
one clause per kind. A clause names the fields of the kind and what each
of them represents; where the fields stand, and what may stand beside
them, is the business of `Body.Supplies`.

`Expr.ofValue_decodes` says that the decoder of trees accepts exactly the
trees that represent something, and gives what they represent. The
decoder recurses on the nesting of the tree, so the proof does as well:
`DecodesWithin.parts` takes the step from the trees inside a node to the
node.
-/

namespace Adorn

open Json Wire

mutual

/-- The tree represents the expression. -/
inductive Represents : Standing → Value → Expr → Prop where
  | node {p : Standing} {v : Value} {k : Expr.Kind} {body : Body} {e : Expr}
      (hnode : Expr.kinds.Node p v k body) (hparts : RepresentsParts k body e) :
      Represents p v e

/-- The parts of a node of the kind represent the expression. -/
inductive RepresentsParts : Expr.Kind → Body → Expr → Prop where
  | string {body : Body} {s : String} (h : body.Supplies [("value", .string s)]) :
      RepresentsParts .stringLiteral body (.string s)
  | number {body : Body} {n : String} (h : body.Supplies [("value", .string n)]) :
      RepresentsParts .numericLiteral body (.number n)
  | boolean {body : Body} {b : Bool} (h : body.Supplies [("value", .boolean b)]) :
      RepresentsParts .booleanLiteral body (.boolean b)
  | null {body : Body} (h : body.Supplies []) : RepresentsParts .nullLiteral body .null
  | template {body : Body} {q : String} (h : body.Supplies [("quasi", .string q)]) :
      RepresentsParts .templateLiteral body (.template q)
  | identifier {body : Body} {n : String} (h : body.Supplies [("name", .string n)]) :
      RepresentsParts .identifier body (.identifier n)
  | array {body : Body} {vs : List Value} {es : List Expr}
      (h : body.Supplies [("elements", .array vs)]) (hes : RepresentsAll vs es) :
      RepresentsParts .arrayLiteral body (.array es)
  | object {body : Body} {vs : List Value} {ps : List Property}
      (h : body.Supplies [("properties", .array vs)]) (hps : RepresentsProperties vs ps) :
      RepresentsParts .objectLiteral body (.object ps)
  | call {body : Body} {v : Value} {vs : List Value} {f : Expr} {es : List Expr}
      (h : body.Supplies [("callee", v), ("arguments", .array vs)])
      (hf : Represents .nested v f) (hes : RepresentsAll vs es) :
      RepresentsParts .callExpr body (.call f es)
  | access {body : Body} {v : Value} {e : Expr} {q : String}
      (h : body.Supplies [("object", v), ("property", .string q)])
      (he : Represents .nested v e) : RepresentsParts .propertyAccess body (.access e q)
  | function {body : Body} {n : Option String} {ps : List String} {b : String}
      (h : body.Supplies
        [("name", nullableString n), ("params", stringArray ps), ("body", .string b)]) :
      RepresentsParts .functionExpr body (.function n ps b)
  | anonymous {body : Body} {ps : List String} {b : String} (hname : body.Lacks "name")
      (h : body.Supplies [("params", stringArray ps), ("body", .string b)]) :
      RepresentsParts .functionExpr body (.function none ps b)
  | arrow {body : Body} {ps : List String} {b : String}
      (h : body.Supplies [("params", stringArray ps), ("body", .string b)]) :
      RepresentsParts .arrowFunction body (.arrow ps b)
  | raw {body : Body} {t : String} (h : body.Supplies [("text", .string t)]) :
      RepresentsParts .raw body (.raw t)

inductive RepresentsAll : List Value → List Expr → Prop where
  | nil : RepresentsAll [] []
  | cons {v : Value} {vs : List Value} {e : Expr} {es : List Expr}
      (he : Represents .nested v e) (hes : RepresentsAll vs es) :
      RepresentsAll (v :: vs) (e :: es)

/-- The tree represents the property of an object. -/
inductive RepresentsProperty : Value → Property → Prop where
  | mk {v w u : Value} {body : Body} {k : Key} {e : Expr} (hbody : Body.Of v body)
      (h : body.Supplies [("key", w), ("value", u)]) (hk : RepresentsKey .nested w k)
      (he : Represents .nested u e) : RepresentsProperty v (.mk k e)

inductive RepresentsProperties : List Value → List Property → Prop where
  | nil : RepresentsProperties [] []
  | cons {v : Value} {vs : List Value} {q : Property} {qs : List Property}
      (hq : RepresentsProperty v q) (hqs : RepresentsProperties vs qs) :
      RepresentsProperties (v :: vs) (q :: qs)

/-- The tree represents the key of a property. -/
inductive RepresentsKey : Standing → Value → Key → Prop where
  | node {p : Standing} {v : Value} {k : Key.Kind} {body : Body} {x : Key}
      (hnode : Key.kinds.Node p v k body) (hparts : RepresentsKeyParts k body x) :
      RepresentsKey p v x

inductive RepresentsKeyParts : Key.Kind → Body → Key → Prop where
  | identifier {body : Body} {n : String} (h : body.Supplies [("name", .string n)]) :
      RepresentsKeyParts .identifier body (.identifier n)
  | string {body : Body} {s : String} (h : body.Supplies [("value", .string s)]) :
      RepresentsKeyParts .stringLiteral body (.string s)
  | computed {body : Body} {v : Value} {e : Expr} (h : body.Supplies [("expr", v)])
      (he : Represents .nested v e) : RepresentsKeyParts .computed body (.computed e)

end

theorem Expr.kinds_lawful : Expr.kinds.Lawful where
  complete k := by cases k <;> decide
  distinct := by decide

theorem Key.kinds_lawful : Key.kinds.Lawful where
  complete k := by cases k <;> decide
  distinct := by decide

/-! ## Scalars and lists in a tree -/

namespace Wire.Buffer

variable {α : Type}

theorem text_eq_ok {v : Value} {s : String} : text v = .ok s ↔ v = .string s := by
  unfold text
  split
  · rename_i t
    constructor
    · intro h'
      cases h'
      rfl
    · intro h'
      cases h'
      rfl
  · rename_i hv
    exact iff_of_false (fun h => nomatch h) (hv s)

theorem flag_eq_ok {v : Value} {b : Bool} : flag v = .ok b ↔ v = .boolean b := by
  unfold flag
  split
  · rename_i c
    constructor
    · intro h'
      cases h'
      rfl
    · intro h'
      cases h'
      rfl
  · rename_i hv
    exact iff_of_false (fun h => nomatch h) (hv b)

theorem nullable_text_eq_ok {v : Value} {n : Option String} :
    nullable text v = .ok n ↔ v = nullableString n := by
  unfold nullable
  split
  · cases n with
    | none => exact iff_of_true rfl rfl
    | some s => exact iff_of_false (fun h => nomatch h) (fun h => nomatch h)
  · rename_i hv
    cases n with
    | none => exact iff_of_false (by cases text v <;> exact fun h => nomatch h) hv
    | some s =>
        rw [nullableString, ← text_eq_ok]
        cases text v <;> simp [Functor.map, Except.map]

theorem mapM_eq_ok {b : Buffer α} {P : Value → α → Prop} : {vs : List Value} →
    (∀ v ∈ vs, ∀ x, b v = .ok x ↔ P v x) → (xs : List α) →
      (vs.mapM b = .ok xs ↔ List.Forall₂ P vs xs)
  | [], _, xs => by
      cases xs with
      | nil => exact iff_of_true rfl .nil
      | cons x xs => exact iff_of_false (fun h => nomatch h) (fun h => nomatch h)
  | v :: vs, hP, xs => by
      obtain ⟨hv, hvs⟩ := List.forall_mem_cons.mp hP
      rw [List.mapM_cons, bind_eq_ok]
      constructor
      · intro h'
        obtain ⟨x, hx, h⟩ := h'
        obtain ⟨ys, hys, hxs⟩ := bind_eq_ok.mp h
        cases hxs
        exact .cons ((hv x).mp hx) ((mapM_eq_ok hvs ys).mp hys)
      · rintro (_ | ⟨hx, hys⟩)
        exact ⟨_, (hv _).mpr hx, bind_eq_ok.mpr ⟨_, (mapM_eq_ok hvs _).mpr hys, rfl⟩⟩

/-- A list is decoded item by item. -/
theorem list_eq_ok {b : Buffer α} {P : Value → α → Prop} {v : Value} {xs : List α}
    (hP : ∀ vs, v = .array vs → ∀ w ∈ vs, ∀ x, b w = .ok x ↔ P w x) :
    list b v = .ok xs ↔ ∃ vs, v = .array vs ∧ List.Forall₂ P vs xs := by
  unfold list
  split
  · rename_i vs
    rw [mapM_eq_ok (hP vs rfl)]
    constructor
    · intro h
      exact ⟨vs, rfl, h⟩
    · intro h'
      obtain ⟨ws, ⟨⟩, h⟩ := h'
      exact h
  · rename_i hv
    exact iff_of_false (fun h => nomatch h) fun ⟨vs, h, _⟩ => hv vs h

theorem list_text_eq_ok {v : Value} {ss : List String} :
    list text v = .ok ss ↔ v = stringArray ss := by
  have hstrings : ∀ vs : List Value,
      List.Forall₂ (fun v s => v = Value.string s) vs ss ↔ vs = ss.map .string := by
    intro vs
    rw [← List.forall₂_map_right_iff, List.forall₂_eq_eq_eq]
  rw [list_eq_ok fun vs _ w _ s => text_eq_ok]
  simp only [hstrings, stringArray, exists_eq_right]

end Wire.Buffer

namespace Wire.Body

variable {α β γ : Type} {body : Body} {title : Title} {y : γ}

theorem fields_bind_eq_ok {fs : List (Field Buffer)} (hkeys : (fs.map Field.key).Nodup)
    {g : Tuple fs → Except Error γ} :
    (body.fields title fs >>= g) = .ok y ↔
      ∃ ps t, body.Supplies ps ∧ body.Reads fs t ps ∧ g t = .ok y := by
  rw [bind_eq_ok]
  constructor
  · intro h
    obtain ⟨t, ht, hg⟩ := h
    obtain ⟨ps, hps, hread⟩ := (fields_eq_ok hkeys title body t).mp ht
    exact ⟨ps, t, hps, hread, hg⟩
  · intro h
    obtain ⟨ps, t, hps, hread, hg⟩ := h
    exact ⟨t, (fields_eq_ok hkeys title body t).mpr ⟨ps, hps, hread⟩, hg⟩

theorem reads_nil {ps : List (String × Value)} : body.Reads [] () ps ↔ ps = [] :=
  Iff.rfl

theorem reads_required {key : String} {b : Buffer α} {fs : List (Field Buffer)} {x : α}
    {t : Tuple fs} {ps : List (String × Value)} :
    body.Reads (.required key b :: fs) (x, t) ps ↔
      ∃ v qs, ps = (key, v) :: qs ∧ b v = .ok x ∧ body.Reads fs t qs := by
  constructor
  · rintro (h | ⟨-, habsent, -⟩)
    · exact h
    · cases habsent
  · exact Or.inl

/-- A record with a single field. -/
theorem one_field_eq_ok {key : String} {b : Buffer α}
    {g : Tuple [Field.required key b] → Except Error γ} :
    (body.fields title [.required key b] >>= g) = .ok y ↔
      ∃ v x, body.Supplies [(key, v)] ∧ b v = .ok x ∧ g (x, ()) = .ok y := by
  have hkeys : (List.map Field.key [Field.required key b]).Nodup := List.nodup_singleton _
  rw [fields_bind_eq_ok hkeys]
  constructor
  · intro h
    obtain ⟨ps, ⟨x, u⟩, hps, hread, hg⟩ := h
    obtain ⟨v, qs, rfl, hx, hnil⟩ := reads_required.mp hread
    cases reads_nil.mp hnil
    exact ⟨v, x, hps, hx, hg⟩
  · intro h
    obtain ⟨v, x, hps, hx, hg⟩ := h
    exact ⟨_, (x, ()), hps, reads_required.mpr ⟨v, [], rfl, hx, reads_nil.mpr rfl⟩, hg⟩

/-- A record with a single field that is a string. -/
theorem one_text_eq_ok {key : String} {g : Tuple [Field.required key Buffer.text] → Except Error γ} :
    (body.fields title [.required key Buffer.text] >>= g) = .ok y ↔
      ∃ s, body.Supplies [(key, .string s)] ∧ g (s, ()) = .ok y := by
  rw [one_field_eq_ok]
  constructor
  · intro h
    obtain ⟨v, s, hsupplies, hs, hg⟩ := h
    obtain rfl := Buffer.text_eq_ok.mp hs
    exact ⟨s, hsupplies, hg⟩
  · intro h
    obtain ⟨s, hsupplies, hg⟩ := h
    exact ⟨_, s, hsupplies, Buffer.text_eq_ok.mpr rfl, hg⟩

/-- A record with two fields. -/
theorem two_fields_eq_ok {key key' : String} {b : Buffer α} {b' : Buffer β} (hne : key ≠ key')
    {g : Tuple [Field.required key b, Field.required key' b'] → Except Error γ} :
    (body.fields title [.required key b, .required key' b'] >>= g) = .ok y ↔
      ∃ v x v' x', body.Supplies [(key, v), (key', v')] ∧ b v = .ok x ∧ b' v' = .ok x' ∧
        g (x, x', ()) = .ok y := by
  have hkeys : (List.map Field.key [Field.required key b, Field.required key' b']).Nodup :=
    List.nodup_cons.mpr ⟨fun h => hne (List.mem_singleton.mp h), List.nodup_singleton _⟩
  rw [fields_bind_eq_ok hkeys]
  constructor
  · intro h'
    obtain ⟨ps, ⟨x, x', u⟩, hps, hread, hg⟩ := h'
    obtain ⟨v, qs, rfl, hx, hrest⟩ := reads_required.mp hread
    obtain ⟨v', qs', rfl, hx', hnil⟩ := reads_required.mp hrest
    cases reads_nil.mp hnil
    exact ⟨v, x, v', x', hps, hx, hx', hg⟩
  · intro h'
    obtain ⟨v, x, v', x', hps, hx, hx', hg⟩ := h'
    exact ⟨_, (x, x', ()), hps, reads_required.mpr ⟨v, _, rfl, hx,
      reads_required.mpr ⟨v', [], rfl, hx', reads_nil.mpr rfl⟩⟩, hg⟩

theorem Supplies.one_within {key : String} {v : Value} (h : body.Supplies [(key, v)]) {n : Nat}
    (hbody : body.nesting < n) : v.nesting < n :=
  Nat.lt_of_le_of_lt (h.nesting_le (List.mem_singleton.mpr rfl)) hbody

theorem Supplies.two_within {key key' : String} {v v' : Value}
    (h : body.Supplies [(key, v), (key', v')]) {n : Nat} (hbody : body.nesting < n) :
    v.nesting < n ∧ v'.nesting < n :=
  ⟨Nat.lt_of_le_of_lt (h.nesting_le (List.mem_cons_self ..)) hbody,
    Nat.lt_of_le_of_lt (h.nesting_le (List.mem_cons_of_mem _ (List.mem_singleton.mpr rfl))) hbody⟩

end Wire.Body

/-! ## From the trees inside a node to the node -/

theorem representsAll_iff {vs : List Value} {es : List Expr} :
    RepresentsAll vs es ↔ List.Forall₂ (Represents .nested) vs es := by
  constructor
  · intro h
    induction vs generalizing es with
    | nil =>
        cases h
        exact .nil
    | cons v vs ih =>
        cases h with
        | cons he hes => exact .cons he (ih hes)
  · intro h
    induction h with
    | nil => exact .nil
    | cons he _ ih => exact .cons he ih

theorem representsProperties_iff {vs : List Value} {ps : List Property} :
    RepresentsProperties vs ps ↔ List.Forall₂ RepresentsProperty vs ps := by
  constructor
  · intro h
    induction vs generalizing ps with
    | nil =>
        cases h
        exact .nil
    | cons v vs ih =>
        cases h with
        | cons hp hps => exact .cons hp (ih hps)
  · intro h
    induction h with
    | nil => exact .nil
    | cons hp _ ih => exact .cons hp ih

section

variable {expr : Buffer Expr} {n : Nat}

/-- What a decoder of the trees inside a node has to do: take exactly the trees of fewer than
`n` levels that represent something. -/
def DecodesWithin (expr : Buffer Expr) (n : Nat) : Prop :=
  ∀ v, v.nesting < n → ∀ e, expr v = .ok e ↔ Represents .nested v e

theorem DecodesWithin.list (hexpr : DecodesWithin expr n) {v : Value} (hv : v.nesting < n)
    {es : List Expr} :
    Buffer.list expr v = .ok es ↔ ∃ vs, v = .array vs ∧ RepresentsAll vs es := by
  rw [Buffer.list_eq_ok fun vs hvs w hw => hexpr w ?_]
  · simp only [representsAll_iff]
  · subst hvs
    exact Nat.lt_of_le_of_lt (nesting_le_items hw) (Nat.lt_of_succ_lt hv)

theorem DecodesWithin.keyParts (hexpr : DecodesWithin expr n) {k : Key.Kind} {body : Body}
    (hbody : body.nesting < n) {x : Key} :
    Key.ofBody expr k body = .ok x ↔ RepresentsKeyParts k body x := by
  cases k with
  | identifier =>
      refine Body.one_text_eq_ok.trans ⟨?_, fun h => ?_⟩
      · intro h'
        obtain ⟨s, hsupplies, ⟨⟩⟩ := h'
        exact .identifier hsupplies
      · cases h with
        | identifier hsupplies => exact ⟨_, hsupplies, rfl⟩
  | stringLiteral =>
      refine Body.one_text_eq_ok.trans ⟨?_, fun h => ?_⟩
      · intro h'
        obtain ⟨s, hsupplies, ⟨⟩⟩ := h'
        exact .string hsupplies
      · cases h with
        | string hsupplies => exact ⟨_, hsupplies, rfl⟩
  | computed =>
      refine Body.one_field_eq_ok.trans ⟨?_, fun h => ?_⟩
      · intro h'
        obtain ⟨v, e, hsupplies, he, ⟨⟩⟩ := h'
        have hv := hsupplies.one_within hbody
        exact .computed hsupplies ((hexpr v hv e).mp he)
      · cases h with
        | @computed _ v e hsupplies he =>
            have hv := hsupplies.one_within hbody
            exact ⟨v, e, hsupplies, (hexpr v hv e).mpr he, rfl⟩

theorem DecodesWithin.key (hexpr : DecodesWithin expr n) {v : Value} (hv : v.nesting < n)
    {x : Key} : Key.ofValueWith expr v = .ok x ↔ RepresentsKey .nested v x := by
  refine bind_eq_ok.trans ⟨?_, ?_⟩
  · intro h
    obtain ⟨⟨k, body⟩, hsplit, hx⟩ := h
    have hnode := (Tagged.split_eq_ok Key.kinds_lawful).mp hsplit
    have hbody := Nat.lt_trans hnode.nesting_lt hv
    exact .node hnode ((hexpr.keyParts hbody).mp hx)
  · intro h
    obtain ⟨hnode, hparts⟩ := h
    have hbody := Nat.lt_trans hnode.nesting_lt hv
    exact ⟨⟨_, _⟩, (Tagged.split_eq_ok Key.kinds_lawful).mpr hnode,
      (hexpr.keyParts hbody).mpr hparts⟩

theorem DecodesWithin.property (hexpr : DecodesWithin expr n) {v : Value} (hv : v.nesting < n)
    {q : Property} : Property.ofValueWith expr v = .ok q ↔ RepresentsProperty v q := by
  have hkey : "key" ≠ "value" := by decide
  refine bind_eq_ok.trans ⟨?_, ?_⟩
  · intro h
    obtain ⟨body, hrecord, hq⟩ := h
    have hof := Body.ofRecord_eq_ok.mp hrecord
    obtain ⟨w, k, u, e, hsupplies, hk, he, ⟨⟩⟩ := (Body.two_fields_eq_ok hkey).mp hq
    have hbody := Nat.lt_trans hof.nesting_lt hv
    obtain ⟨hw, hu⟩ := hsupplies.two_within hbody
    exact .mk hof hsupplies ((hexpr.key hw).mp hk) ((hexpr u hu e).mp he)
  · intro h
    obtain ⟨hof, hsupplies, hk, he⟩ := h
    have hbody := Nat.lt_trans hof.nesting_lt hv
    obtain ⟨hw, hu⟩ := hsupplies.two_within hbody
    exact ⟨_, Body.ofRecord_eq_ok.mpr hof, (Body.two_fields_eq_ok hkey).mpr
      ⟨_, _, _, _, hsupplies, (hexpr.key hw).mpr hk, (hexpr _ hu _).mpr he, rfl⟩⟩

theorem DecodesWithin.properties (hexpr : DecodesWithin expr n) {v : Value}
    (hv : v.nesting < n) {qs : List Property} :
    Buffer.list (Property.ofValueWith expr) v = .ok qs ↔
      ∃ vs, v = .array vs ∧ RepresentsProperties vs qs := by
  rw [Buffer.list_eq_ok fun vs hvs w hw q => hexpr.property ?_]
  · simp only [representsProperties_iff]
  · subst hvs
    exact Nat.lt_of_le_of_lt (nesting_le_items hw) (Nat.lt_of_succ_lt hv)

theorem reads_signature {body : Body} {ps : List String} {b : String}
    {qs : List (String × Value)} :
    body.Reads [.required "params" (Buffer.list Buffer.text), .required "body" Buffer.text]
      (ps, b, ()) qs ↔ qs = [("params", stringArray ps), ("body", .string b)] := by
  constructor
  · intro h
    obtain ⟨v, rs, rfl, hps, hrest⟩ := Body.reads_required.mp h
    obtain ⟨w, us, rfl, hb, hnil⟩ := Body.reads_required.mp hrest
    obtain rfl := Buffer.list_text_eq_ok.mp hps
    obtain rfl := Buffer.text_eq_ok.mp hb
    cases Body.reads_nil.mp hnil
    rfl
  · rintro rfl
    exact Body.reads_required.mpr ⟨_, _, rfl, Buffer.list_text_eq_ok.mpr rfl,
      Body.reads_required.mpr ⟨_, _, rfl, Buffer.text_eq_ok.mpr rfl, Body.reads_nil.mpr rfl⟩⟩

/-- The name of a function is the one field that may be missing. -/
theorem functionFields_eq_ok {body : Body} {title : Title} {e : Expr} :
    (do
      let (n, ps, b, ()) ← body.fields title
        [.omissible "name" (Buffer.nullable Buffer.text) none,
         .required "params" (Buffer.list Buffer.text), .required "body" Buffer.text]
      return Expr.function n ps b) = Except.ok e ↔ RepresentsParts .functionExpr body e := by
  refine (Body.fields_bind_eq_ok (by decide)).trans ⟨?_, fun h => ?_⟩
  · rintro ⟨qs, ⟨n, ps, b, u⟩, hsupplies, ⟨v, rs, rfl, hn, hrest⟩ | ⟨hlacks, hnone, hrest⟩, ⟨⟩⟩
    · obtain rfl := reads_signature.mp hrest
      obtain rfl := Buffer.nullable_text_eq_ok.mp hn
      exact .function hsupplies
    · obtain rfl := reads_signature.mp hrest
      cases hnone
      exact .anonymous hlacks hsupplies
  · cases h with
    | @function _ n ps b hsupplies =>
        exact ⟨_, (n, ps, b, ()), hsupplies,
          Or.inl ⟨_, _, rfl, Buffer.nullable_text_eq_ok.mpr rfl, reads_signature.mpr rfl⟩, rfl⟩
    | @anonymous _ ps b hlacks hsupplies =>
        exact ⟨_, (none, ps, b, ()), hsupplies,
          Or.inr ⟨hlacks, rfl, reads_signature.mpr rfl⟩, rfl⟩

theorem DecodesWithin.parts (hexpr : DecodesWithin expr n) {k : Expr.Kind} {body : Body}
    (hbody : body.nesting < n) {e : Expr} :
    Expr.ofBody expr k body = .ok e ↔ RepresentsParts k body e := by
  cases k with
  | stringLiteral =>
      refine Body.one_text_eq_ok.trans ⟨?_, fun h => ?_⟩
      · intro h'
        obtain ⟨s, hsupplies, ⟨⟩⟩ := h'
        exact .string hsupplies
      · cases h with
        | string hsupplies => exact ⟨_, hsupplies, rfl⟩
  | numericLiteral =>
      refine Body.one_text_eq_ok.trans ⟨?_, fun h => ?_⟩
      · intro h'
        obtain ⟨s, hsupplies, ⟨⟩⟩ := h'
        exact .number hsupplies
      · cases h with
        | number hsupplies => exact ⟨_, hsupplies, rfl⟩
  | booleanLiteral =>
      refine Body.one_field_eq_ok.trans ⟨?_, fun h => ?_⟩
      · intro h'
        obtain ⟨v, b, hsupplies, hb, ⟨⟩⟩ := h'
        obtain rfl := Buffer.flag_eq_ok.mp hb
        exact .boolean hsupplies
      · cases h with
        | boolean hsupplies => exact ⟨_, _, hsupplies, Buffer.flag_eq_ok.mpr rfl, rfl⟩
  | nullLiteral =>
      refine bind_eq_ok.trans ⟨?_, fun h => ?_⟩
      · intro h'
        obtain ⟨_, hnothing, ⟨⟩⟩ := h'
        exact .null (Body.nothing_eq_ok.mp hnothing)
      · cases h with
        | null hsupplies => exact ⟨(), Body.nothing_eq_ok.mpr hsupplies, rfl⟩
  | templateLiteral =>
      refine Body.one_text_eq_ok.trans ⟨?_, fun h => ?_⟩
      · intro h'
        obtain ⟨s, hsupplies, ⟨⟩⟩ := h'
        exact .template hsupplies
      · cases h with
        | template hsupplies => exact ⟨_, hsupplies, rfl⟩
  | identifier =>
      refine Body.one_text_eq_ok.trans ⟨?_, fun h => ?_⟩
      · intro h'
        obtain ⟨s, hsupplies, ⟨⟩⟩ := h'
        exact .identifier hsupplies
      · cases h with
        | identifier hsupplies => exact ⟨_, hsupplies, rfl⟩
  | arrayLiteral =>
      refine Body.one_field_eq_ok.trans ⟨?_, fun h => ?_⟩
      · intro h'
        obtain ⟨v, es, hsupplies, hes, ⟨⟩⟩ := h'
        obtain ⟨vs, rfl, hall⟩ := (hexpr.list (hsupplies.one_within hbody)).mp hes
        exact .array hsupplies hall
      · cases h with
        | array hsupplies hall =>
            exact ⟨_, _, hsupplies,
              (hexpr.list (hsupplies.one_within hbody)).mpr ⟨_, rfl, hall⟩, rfl⟩
  | objectLiteral =>
      refine Body.one_field_eq_ok.trans ⟨?_, fun h => ?_⟩
      · intro h'
        obtain ⟨v, qs, hsupplies, hqs, ⟨⟩⟩ := h'
        obtain ⟨vs, rfl, hall⟩ := (hexpr.properties (hsupplies.one_within hbody)).mp hqs
        exact .object hsupplies hall
      · cases h with
        | object hsupplies hall =>
            exact ⟨_, _, hsupplies,
              (hexpr.properties (hsupplies.one_within hbody)).mpr ⟨_, rfl, hall⟩, rfl⟩
  | callExpr =>
      refine (Body.two_fields_eq_ok (by decide)).trans ⟨?_, fun h => ?_⟩
      · intro h'
        obtain ⟨v, f, w, es, hsupplies, hf, hes, ⟨⟩⟩ := h'
        obtain ⟨hv, hw⟩ := hsupplies.two_within hbody
        obtain ⟨vs, rfl, hall⟩ := (hexpr.list hw).mp hes
        exact .call hsupplies ((hexpr v hv f).mp hf) hall
      · cases h with
        | call hsupplies hf hall =>
            obtain ⟨hv, hw⟩ := hsupplies.two_within hbody
            exact ⟨_, _, _, _, hsupplies, (hexpr _ hv _).mpr hf,
              (hexpr.list hw).mpr ⟨_, rfl, hall⟩, rfl⟩
  | propertyAccess =>
      refine (Body.two_fields_eq_ok (by decide)).trans ⟨?_, fun h => ?_⟩
      · intro h'
        obtain ⟨v, e, w, q, hsupplies, he, hq, ⟨⟩⟩ := h'
        obtain ⟨hv, -⟩ := hsupplies.two_within hbody
        obtain rfl := Buffer.text_eq_ok.mp hq
        exact .access hsupplies ((hexpr v hv e).mp he)
      · cases h with
        | access hsupplies he =>
            obtain ⟨hv, -⟩ := hsupplies.two_within hbody
            exact ⟨_, _, _, _, hsupplies, (hexpr _ hv _).mpr he, Buffer.text_eq_ok.mpr rfl, rfl⟩
  | functionExpr => exact functionFields_eq_ok
  | arrowFunction =>
      refine (Body.two_fields_eq_ok (by decide)).trans ⟨?_, fun h => ?_⟩
      · intro h'
        obtain ⟨v, ps, w, b, hsupplies, hps, hb, ⟨⟩⟩ := h'
        obtain rfl := Buffer.list_text_eq_ok.mp hps
        obtain rfl := Buffer.text_eq_ok.mp hb
        exact .arrow hsupplies
      · cases h with
        | arrow hsupplies =>
            exact ⟨_, _, _, _, hsupplies, Buffer.list_text_eq_ok.mpr rfl,
              Buffer.text_eq_ok.mpr rfl, rfl⟩
  | raw =>
      refine Body.one_text_eq_ok.trans ⟨?_, fun h => ?_⟩
      · intro h'
        obtain ⟨s, hsupplies, ⟨⟩⟩ := h'
        exact .raw hsupplies
      · cases h with
        | raw hsupplies => exact ⟨_, hsupplies, rfl⟩

end

/-! ## The decoder of trees -/

/-- The bound on the recursion is never met: a tree of fewer levels is decoded to its end. -/
theorem Expr.ofValueWithin_decodes : (n : Nat) → DecodesWithin (Expr.ofValueWithin n) n
  | n + 1, v, hv, e => by
      refine bind_eq_ok.trans ⟨?_, ?_⟩
      · intro h
        obtain ⟨⟨k, body⟩, hsplit, he⟩ := h
        have hnode := (Tagged.split_eq_ok Expr.kinds_lawful).mp hsplit
        have hbody := Nat.lt_of_lt_of_le hnode.nesting_lt (Nat.le_of_lt_succ hv)
        exact .node hnode (((Expr.ofValueWithin_decodes n).parts hbody).mp he)
      · intro h
        obtain ⟨hnode, hparts⟩ := h
        have hbody := Nat.lt_of_lt_of_le hnode.nesting_lt (Nat.le_of_lt_succ hv)
        exact ⟨⟨_, _⟩, (Tagged.split_eq_ok Expr.kinds_lawful).mpr hnode,
          ((Expr.ofValueWithin_decodes n).parts hbody).mpr hparts⟩

theorem Expr.ofValue_decodes (n : Nat) : DecodesWithin Expr.ofValue n :=
  fun v _ e => Expr.ofValueWithin_decodes (v.nesting + 1) v (Nat.lt_succ_self _) e

end Adorn
