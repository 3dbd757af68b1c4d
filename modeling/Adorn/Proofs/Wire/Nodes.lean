import Adorn.Proofs.Wire.Drafts
import Adorn.Wire.Tagged

/-!
# Nodes of a tree

What a tree has to look like for its fields to be found, said without
the functions that find them. A record keeps its fields in an object,
each under its key exactly once among any other entries, or in a list,
in the order of declaration and nothing else. A node is a record with a
tag, which is one more entry or the first item.

`Body.fields_eq_ok` and `Tagged.split_eq_ok` say that the functions
accept exactly these trees.
-/

namespace Adorn.Wire

open Json

theorem bind_eq_ok {ε α β : Type} {x : Except ε α} {f : α → Except ε β} {b : β} :
    (x >>= f) = .ok b ↔ ∃ a, x = .ok a ∧ f a = .ok b := by
  cases x <;> simp [bind, Except.bind]

/-- Values can be compared where errors cannot. -/
theorem eq_ok_of_toOption {ε α : Type} {x : Except ε α} {a : α} (h : x.toOption = some a) :
    x = .ok a := by
  cases x with
  | error e => cases h
  | ok b =>
      cases h
      rfl

/-! ## Fields -/

/-- The tree is a record with these parts. -/
inductive Body.Of : Value → Body → Prop where
  | object (es : List (String × Value)) : Body.Of (.object es) (.keyed es)
  | array (vs : List Value) : Body.Of (.array vs) (.listed vs)

namespace Body

/-- The parts hold each of the fields exactly once; a list holds nothing else. -/
inductive Supplies : Body → List (String × Value) → Prop where
  | keyed {es fields : List (String × Value)} (h : ∀ f ∈ fields, valuesAt f.1 es = [f.2]) :
      Supplies (.keyed es) fields
  | listed {vs : List Value} {fields : List (String × Value)} (h : fields.map Prod.snd = vs) :
      Supplies (.listed vs) fields

/-- No entry has the key. A list lacks no field. -/
inductive Lacks (key : String) : Body → Prop where
  | keyed {es : List (String × Value)} (h : valuesAt key es = []) : Lacks key (.keyed es)

theorem ofRecord_eq_ok {name : String} {v : Value} {body : Body} :
    ofRecord name v = .ok body ↔ Body.Of v body := by
  cases v with
  | scalar s =>
      simp only [ofRecord, reduceCtorEq, false_iff]
      intro h
      cases h
  | array vs =>
      simp only [ofRecord, Except.ok.injEq]
      constructor
      · rintro rfl
        exact .array vs
      · intro h
        cases h
        rfl
  | object es =>
      simp only [ofRecord, Except.ok.injEq]
      constructor
      · rintro rfl
        exact .object es
      · intro h
        cases h
        rfl

/-- The fields are read off the given trees, those that the body lacks excepted. -/
def Reads (body : Body) : (fs : List (Field Buffer)) → Tuple fs → List (String × Value) → Prop
  | [], _, ps => ps = []
  | f :: fs, (x, t), ps =>
    (∃ v qs, ps = (f.key, v) :: qs ∧ f.read v = .ok x ∧ Reads body fs t qs) ∨
      (body.Lacks f.key ∧ f.absent = some x ∧ Reads body fs t ps)

/-- What a field of a tree makes of the tree under its key. -/
def readsAs (f : Field Buffer) (v : Value) (x : f.Ty) : Prop :=
  f.read v = .ok x

theorem listedFields_eq_ok (us : List Value) (title : Title) (total whole : Nat) :
    {fs : List (Field Buffer)} → (index : Nat) → (vs : List Value) → (t : Tuple fs) →
      (listedFields title total whole fs index vs = .ok t ↔
        ∃ ps, ps.map Prod.snd = vs ∧ Reads (.listed us) fs t ps)
  | [], index, vs, t => by
      cases vs <;> simp [listedFields, Reads]
  | f :: fs, index, [], (x, t) => by
      simp only [listedFields, reduceCtorEq, List.map_eq_nil_iff, false_iff]
      rintro ⟨ps, rfl, ⟨v, qs, hps, -⟩ | ⟨⟨⟩, -⟩⟩
      cases hps
  | f :: fs, index, v :: vs, (x, t) => by
      simp only [listedFields, bind_eq_ok, pure, Except.pure, Except.ok.injEq, Prod.mk.injEq]
      constructor
      · intro h
        obtain ⟨y, hy, u, hu, rfl, rfl⟩ := h
        obtain ⟨ps, rfl, hps⟩ := (listedFields_eq_ok us title total whole (index + 1) vs u).mp hu
        exact ⟨(f.key, v) :: ps, rfl, Or.inl ⟨v, ps, rfl, hy, hps⟩⟩
      · rintro ⟨ps, hmap, ⟨w, qs, rfl, hw, hqs⟩ | ⟨⟨⟩, -⟩⟩
        obtain ⟨rfl, rfl⟩ := List.cons.inj hmap
        exact ⟨x, hw, t,
          (listedFields_eq_ok us title total whole (index + 1) _ t).mpr ⟨qs, rfl, hqs⟩, rfl, rfl⟩

theorem keyedFields_eq_ok {fs : List (Field Buffer)} (hkeys : (fs.map Field.key).Nodup)
    (t : Tuple fs) : (d : Draft fs) → (es : List (String × Value)) →
      ((keyedFields fs d es >>= Draft.finish fs) = .ok t ↔ Draft.Awaits readsAs fs d t es)
  | d, [] => by
      rw [Draft.awaits_nil]
      rfl
  | d, (k, v) :: es => by
      rw [Draft.awaits_cons hkeys]
      unfold keyedFields
      cases Draft.place fs k d with
      | unknown => exact keyedFields_eq_ok hkeys t d es
      | taken => simp [bind, Except.bind]
      | free f store =>
          simp only [bind_assoc, bind_eq_ok (x := f.read v)]
          exact exists_congr fun x => and_congr_right fun _ =>
            keyedFields_eq_ok hkeys t (store x) es

theorem awaits_empty {es : List (String × Value)} : {fs : List (Field Buffer)} → (t : Tuple fs) →
    (Draft.Awaits readsAs fs (Draft.empty fs) t es ↔
      ∃ ps, (∀ p ∈ ps, valuesAt p.1 es = [p.2]) ∧ Reads (.keyed es) fs t ps)
  | [], _ => by simp [Draft.Awaits, Reads]
  | f :: fs, (x, t) => by
      simp only [Draft.empty, Draft.Awaits, Field.Awaits, awaits_empty t, Reads, readsAs]
      constructor
      · rintro ⟨⟨v, hv, hx⟩ | ⟨hnone, hx⟩, ps, hps, hread⟩
        · exact ⟨(f.key, v) :: ps, List.forall_mem_cons.mpr ⟨hv, hps⟩,
            Or.inl ⟨v, ps, rfl, hx, hread⟩⟩
        · exact ⟨ps, hps, Or.inr ⟨.keyed hnone, hx, hread⟩⟩
      · rintro ⟨ps, hps, ⟨v, qs, rfl, hx, hread⟩ | ⟨⟨hnone⟩, hx, hread⟩⟩
        · obtain ⟨hv, hqs⟩ := List.forall_mem_cons.mp hps
          exact ⟨Or.inl ⟨v, hv, hx⟩, qs, hqs, hread⟩
        · exact ⟨Or.inr ⟨hnone, hx⟩, ps, hps, hread⟩

/-- The fields of a record are found where its parts supply them, and nowhere else. -/
theorem fields_eq_ok {fs : List (Field Buffer)} (hkeys : (fs.map Field.key).Nodup)
    (title : Title) (body : Body) (t : Tuple fs) :
    body.fields title fs = .ok t ↔ ∃ ps, body.Supplies ps ∧ body.Reads fs t ps := by
  cases body with
  | listed vs =>
      rw [fields, listedFields_eq_ok vs title fs.length vs.length 0 vs t]
      constructor
      · intro h
        obtain ⟨ps, hvs, hps⟩ := h
        exact ⟨ps, .listed hvs, hps⟩
      · intro h
        obtain ⟨ps, hsupplies, hps⟩ := h
        cases hsupplies with
        | listed hvs => exact ⟨ps, hvs, hps⟩
  | keyed es =>
      rw [fields, keyedFields_eq_ok hkeys, awaits_empty]
      constructor
      · intro h
        obtain ⟨ps, hps, hread⟩ := h
        exact ⟨ps, .keyed hps, hread⟩
      · intro h
        obtain ⟨ps, ⟨hps⟩, hread⟩ := h
        exact ⟨ps, hps, hread⟩

/-- A kind without fields asks nothing of its entries and takes no items. -/
theorem nothing_eq_ok {body : Body} : body.nothing = .ok () ↔ body.Supplies [] := by
  cases body with
  | listed vs =>
      cases vs with
      | nil => exact iff_of_true rfl (.listed rfl)
      | cons v vs =>
          refine iff_of_false (fun h => nomatch h) fun hsupplies => ?_
          cases hsupplies with
          | listed hvs => cases hvs
  | keyed es => exact iff_of_true rfl (.keyed fun _ h => nomatch h)

end Body

/-! ## Tags -/

/-- Where a node stands: it is read straight off the text or is part of another node's tree. -/
inductive Standing where
  | root
  | nested

namespace Tagged

variable {κ : Type}

/-- The tree is the tag of a kind: its name or, inside another node, its number. -/
inductive Names (t : Tagged κ) : Standing → Value → κ → Prop where
  | name (p : Standing) (k : κ) : Names t p (.string (t.name k)) k
  | index {i : Nat} {k : κ} (h : t.kinds[i]? = some k) : Names t .nested (.integer i) k

/-- The tree is a node of a kind with these parts: an object with exactly one tag, or a list that
starts with one. -/
inductive Node (t : Tagged κ) (p : Standing) : Value → κ → Body → Prop where
  | object {es : List (String × Value)} {v : Value} {k : κ} (htag : valuesAt tagKey es = [v])
      (hv : t.Names p v k) : Node t p (.object es) k (.keyed (es.filter fun e => e.1 ≠ tagKey))
  | array {v : Value} {vs : List Value} {k : κ} (hv : t.Names p v k) :
      Node t p (.array (v :: vs)) k (.listed vs)

/-- Every kind is listed, and no two kinds have the same name. -/
structure Lawful (t : Tagged κ) : Prop where
  complete : ∀ k, k ∈ t.kinds
  distinct : (t.kinds.map t.name).Nodup

/-- Decodes the tag of a node. -/
def tagAt (t : Tagged κ) : Standing → Buffer κ
  | .root, .scalar (.string s) => t.ofName s
  | .root, v => .error (.wrongType v.form .variant)
  | .nested, v => t.tagOf v

theorem ofName_eq_ok {t : Tagged κ} (ht : t.Lawful) {s : String} {k : κ} :
    t.ofName s = .ok k ↔ s = t.name k := by
  unfold ofName
  cases hfind : t.kinds.find? fun j => t.name j == s with
  | none =>
      refine iff_of_false (fun h => nomatch h) ?_
      rintro rfl
      simpa using List.find?_eq_none.mp hfind k (ht.complete k)
  | some j =>
      have hj : t.name j = s := by simpa using List.find?_some hfind
      simp only [Except.ok.injEq]
      constructor
      · rintro rfl
        exact hj.symm
      · rintro rfl
        exact List.inj_on_of_nodup_map ht.distinct (ht.complete j) (ht.complete k) hj

theorem ofIndex_eq_ok {t : Tagged κ} {i : Nat} {k : κ} :
    t.ofIndex i = .ok k ↔ t.kinds[i]? = some k := by
  unfold ofIndex
  cases t.kinds[i]? <;> simp

/-- A tag is accepted exactly where it names a kind. -/
theorem tagAt_eq_ok {t : Tagged κ} (ht : t.Lawful) {p : Standing} {v : Value} {k : κ} :
    t.tagAt p v = .ok k ↔ t.Names p v k := by
  constructor
  · intro h
    cases p with
    | root =>
        unfold tagAt at h
        split at h
        · obtain rfl := (ofName_eq_ok ht).mp h
          exact .name .root k
        · cases h
        · contradiction
    | nested =>
        simp only [tagAt] at h
        unfold tagOf at h
        split at h
        · obtain rfl := (ofName_eq_ok ht).mp h
          exact .name .nested k
        · exact .index (ofIndex_eq_ok.mp h)
        · cases h
  · intro h
    cases h with
    | name p k => cases p <;> exact (ofName_eq_ok ht).mpr rfl
    | index hi => exact ofIndex_eq_ok.mpr hi

/-! ## Taking the tag out -/

/-- Takes the tag out of a list of entries; `tagOf` decodes the tag and `keep` checks the other
values. -/
def collect (tagOf : Buffer κ) (keep : Buffer Value) :
    Option κ → List (String × Value) → Except Error (κ × List (String × Value))
  | none, [] => .error (.missingField tagKey)
  | some k, [] => .ok (k, [])
  | tag, (key, v) :: es =>
    if key = tagKey then
      match tag with
      | some _ => .error (.repeatedField tagKey)
      | none => do collect tagOf keep (some (← tagOf v)) es
    else do
      let v ← keep v
      let (k, rest) ← collect tagOf keep tag es
      return (k, (key, v) :: rest)

theorem splitEntries_eq_collect (t : Tagged κ) : (tag : Option κ) →
    (es : List (String × Value)) → t.splitEntries tag es = collect (t.tagAt .nested) .ok tag es
  | none, [] => rfl
  | some _, [] => rfl
  | none, (key, v) :: es => by
      have htag : ∀ k, t.splitEntries (some k) es = _ := fun k => splitEntries_eq_collect t _ es
      simp only [splitEntries, collect, htag, splitEntries_eq_collect t none es, tagAt]
      rfl
  | some k, (key, v) :: es => by
      simp only [splitEntries, collect, splitEntries_eq_collect t (some k) es]
      rfl

/-- The tag as a field of its own. -/
abbrev tagField (tagOf : Buffer κ) : Field Buffer :=
  .required tagKey tagOf

theorem collect_eq_ok {tagOf : Buffer κ} {keep : Buffer Value}
    (hkeep : ∀ v w, keep v = .ok w → w = v) {k : κ} : (tag : Option κ) →
      (es rest : List (String × Value)) →
        (collect tagOf keep tag es = .ok (k, rest) ↔
          (tagField tagOf).Awaits Body.readsAs tag k es
            ∧ (∀ e ∈ es, e.1 ≠ tagKey → keep e.2 = .ok e.2)
            ∧ rest = es.filter fun e => e.1 ≠ tagKey)
  | none, [], rest => by simp [collect, Field.Awaits, valuesAt]
  | some j, [], rest => by simp [collect, Field.Awaits, valuesAt, eq_comm]
  | tag, (key, v) :: es, rest => by
      by_cases hkey : key = tagKey
      · subst hkey
        have hfilter : ((tagKey, v) :: es).filter (fun e => e.1 ≠ tagKey)
            = es.filter fun e => e.1 ≠ tagKey := List.filter_cons_of_neg (by simp)
        have hall : (∀ e ∈ (tagKey, v) :: es, e.1 ≠ tagKey → keep e.2 = .ok e.2) ↔
            ∀ e ∈ es, e.1 ≠ tagKey → keep e.2 = .ok e.2 := by simp
        rw [hfilter, hall]
        cases tag with
        | some j =>
            simp only [collect, if_true, reduceCtorEq, false_iff]
            intro h
            obtain ⟨⟨-, hes⟩, -⟩ := h
            rw [valuesAt_self] at hes
            cases hes
        | none =>
            have hfree := @Field.awaits_free Buffer Value Body.readsAs (tagField tagOf) k v es
            simp only [collect, if_true, bind_eq_ok]
            rw [hfree]
            constructor
            · intro h
              obtain ⟨j, hj, hrest⟩ := h
              obtain ⟨hawaits, hkept⟩ := (collect_eq_ok hkeep (some j) es rest).mp hrest
              exact ⟨⟨j, hj, hawaits⟩, hkept⟩
            · intro h
              obtain ⟨⟨j, hj, hawaits⟩, hkept⟩ := h
              exact ⟨j, hj, (collect_eq_ok hkeep (some j) es rest).mpr ⟨hawaits, hkept⟩⟩
      · have hfilter : ((key, v) :: es).filter (fun e => e.1 ≠ tagKey)
            = (key, v) :: es.filter fun e => e.1 ≠ tagKey :=
          List.filter_cons_of_pos (by simpa using hkey)
        rw [hfilter, Field.awaits_of_ne hkey, List.forall_mem_cons]
        unfold collect
        simp only [if_neg hkey, bind_eq_ok, pure, Except.pure, Except.ok.injEq, Prod.mk.injEq]
        constructor
        · intro h
          obtain ⟨w, hw, ⟨j, qs⟩, hqs, rfl, rfl⟩ := h
          obtain rfl := hkeep v w hw
          obtain ⟨hawaits, hkept, rfl⟩ := (collect_eq_ok hkeep tag es qs).mp hqs
          exact ⟨hawaits, ⟨fun _ => hw, hkept⟩, rfl⟩
        · intro h
          obtain ⟨hawaits, ⟨hv, hkept⟩, rfl⟩ := h
          exact ⟨v, hv hkey, ⟨k, _⟩,
            (collect_eq_ok hkeep tag es _).mpr ⟨hawaits, hkept, rfl⟩, rfl, rfl⟩

/-- A value that is not kept stops the pass, unless the tag has stopped it before. -/
theorem collect_eq_error {tagOf : Buffer κ} {keep : Buffer Value} {e : Error}
    (hkeep : ∀ v, keep v = .ok v ∨ keep v = .error e) {k : κ} : {tag : Option κ} →
      {es : List (String × Value)} → (tagField tagOf).Awaits Body.readsAs tag k es →
        (∃ x ∈ es, x.1 ≠ tagKey ∧ keep x.2 = .error e) → collect tagOf keep tag es = .error e
  | tag, (key, v) :: es, hawaits, hfail => by
      by_cases hkey : key = tagKey
      · subst hkey
        have hfail' : ∃ x ∈ es, x.1 ≠ tagKey ∧ keep x.2 = .error e := by simpa using hfail
        cases tag with
        | some j =>
            have hes := hawaits.2
            rw [valuesAt_self] at hes
            cases hes
        | none =>
            obtain ⟨j, hj, hawaits'⟩ := Field.awaits_free.mp hawaits
            have hj' : tagOf v = .ok j := hj
            simp only [collect, if_true, hj']
            exact collect_eq_error hkeep hawaits' hfail'
      · rw [Field.awaits_of_ne hkey] at hawaits
        unfold collect
        simp only [if_neg hkey]
        rcases hkeep v with hv | hv
        · have hfail' : ∃ x ∈ es, x.1 ≠ tagKey ∧ keep x.2 = .error e := by
            simpa [hv] using hfail
          rw [hv, collect_eq_error hkeep hawaits hfail']
          rfl
        · rw [hv]
          rfl

/-- The tag field of a node waits for exactly one tag. -/
theorem tagField_awaits {t : Tagged κ} (ht : t.Lawful) {p : Standing} {k : κ}
    {es : List (String × Value)} :
    (tagField (t.tagAt p)).Awaits Body.readsAs none k es ↔
      ∃ v, valuesAt tagKey es = [v] ∧ t.Names p v k := by
  simp only [Field.Awaits, reduceCtorEq, and_false, or_false]
  exact exists_congr fun v => and_congr_right fun _ => tagAt_eq_ok ht

theorem node_object {t : Tagged κ} (ht : t.Lawful) {p : Standing} {k : κ} {body : Body}
    {es : List (String × Value)} :
    t.Node p (.object es) k body ↔
      (tagField (t.tagAt p)).Awaits Body.readsAs none k es
        ∧ body = .keyed (es.filter fun e => e.1 ≠ tagKey) := by
  rw [tagField_awaits ht]
  constructor
  · intro h
    cases h with
    | object htag hv => exact ⟨⟨_, htag, hv⟩, rfl⟩
  · intro h'
    obtain ⟨⟨v, htag, hv⟩, rfl⟩ := h'
    exact .object htag hv

/-- A tree is split into a tag and parts exactly where it is a node. -/
theorem split_eq_ok {t : Tagged κ} (ht : t.Lawful) {v : Value} {k : κ} {body : Body} :
    t.split v = .ok (k, body) ↔ t.Node .nested v k body := by
  cases v with
  | scalar s =>
      refine iff_of_false (fun h => nomatch h) ?_
      intro h'
      cases h'
  | array vs =>
      cases vs with
      | nil =>
          refine iff_of_false (fun h => nomatch h) ?_
          intro h'
          cases h'
      | cons v vs =>
          have htag : t.tagAt .nested v = .ok k ↔ t.Names .nested v k := tagAt_eq_ok ht
          simp only [split, bind_eq_ok, pure, Except.pure, Except.ok.injEq, Prod.mk.injEq]
          constructor
          · intro h'
            obtain ⟨j, hj, rfl, rfl⟩ := h'
            exact .array (htag.mp hj)
          · intro h
            cases h with
            | array hv => exact ⟨k, htag.mpr hv, rfl, rfl⟩
  | object es =>
      have hkeep : ∀ v w : Value, (.ok v : Except Error Value) = .ok w → w = v := by
        rintro v w ⟨⟩
        rfl
      simp only [split, splitEntries_eq_collect, bind_eq_ok, pure, Except.pure, Except.ok.injEq,
        Prod.mk.injEq]
      rw [node_object ht]
      constructor
      · intro h'
        obtain ⟨⟨j, rest⟩, hrest, rfl, rfl⟩ := h'
        obtain ⟨hawaits, -, rfl⟩ := (collect_eq_ok hkeep none es rest).mp hrest
        exact ⟨hawaits, rfl⟩
      · intro h'
        obtain ⟨hawaits, rfl⟩ := h'
        exact ⟨⟨k, _⟩, (collect_eq_ok hkeep none es _).mpr ⟨hawaits, fun _ _ _ => rfl, rfl⟩,
          rfl, rfl⟩

end Tagged

/-! ## Nesting -/

def Body.nesting : Body → Nat
  | .listed vs => nestingItems vs
  | .keyed es => nestingEntries es

theorem nesting_le_items {v : Value} : {vs : List Value} → v ∈ vs → v.nesting ≤ nestingItems vs
  | w :: vs, h => by
      rw [nestingItems]
      rcases List.mem_cons.mp h with rfl | h
      · exact Nat.le_max_left ..
      · exact Nat.le_trans (nesting_le_items h) (Nat.le_max_right ..)

theorem nesting_le_entries {k : String} {v : Value} : {es : List (String × Value)} →
    (k, v) ∈ es → v.nesting ≤ nestingEntries es
  | (l, w) :: es, h => by
      rw [nestingEntries]
      rcases List.mem_cons.mp h with heq | h
      · cases heq
        exact Nat.le_max_left ..
      · exact Nat.le_trans (nesting_le_entries h) (Nat.le_max_right ..)

theorem nestingItems_le {n : Nat} : {vs : List Value} →
    (∀ v ∈ vs, v.nesting ≤ n) → nestingItems vs ≤ n
  | [], _ => Nat.zero_le _
  | _ :: vs, h => by
      obtain ⟨hv, hvs⟩ := List.forall_mem_cons.mp h
      rw [nestingItems]
      exact Nat.max_le.mpr ⟨hv, nestingItems_le hvs⟩

theorem nestingEntries_le {n : Nat} : {es : List (String × Value)} →
    (∀ e ∈ es, e.2.nesting ≤ n) → nestingEntries es ≤ n
  | [], _ => Nat.zero_le _
  | (_, _) :: es, h => by
      obtain ⟨hv, hes⟩ := List.forall_mem_cons.mp h
      rw [nestingEntries]
      exact Nat.max_le.mpr ⟨hv, nestingEntries_le hes⟩

/-- A field nests no deeper than the parts it is found in. -/
theorem Body.Supplies.nesting_le {body : Body} {ps : List (String × Value)}
    (h : body.Supplies ps) {k : String} {v : Value} (hv : (k, v) ∈ ps) :
    v.nesting ≤ body.nesting := by
  cases h with
  | @keyed es _ hes =>
      have hmem : v ∈ valuesAt k es := by
        rw [hes (k, v) hv]
        exact List.mem_cons_self ..
      exact nesting_le_entries (mem_valuesAt.mp hmem)
  | listed hvs =>
      subst hvs
      exact nesting_le_items (List.mem_map_of_mem hv)

/-- The parts of a record stand one level further in. -/
theorem Body.Of.nesting_lt {v : Value} {body : Body} (h : Body.Of v body) :
    body.nesting < v.nesting := by
  cases h with
  | object es => exact Nat.lt_succ_self _
  | array vs => exact Nat.lt_succ_self _

/-- The parts of a node stand one level further in. -/
theorem Tagged.Node.nesting_lt {κ : Type} {t : Tagged κ} {p : Standing} {v : Value} {k : κ}
    {body : Body} (h : t.Node p v k body) : body.nesting < v.nesting := by
  cases h with
  | @object es w k htag hv =>
      refine Nat.lt_succ_of_le (nestingEntries_le fun e he => ?_)
      exact nesting_le_entries (List.mem_of_mem_filter he)
  | @array w vs k hv => exact Nat.lt_succ_of_le (Nat.le_max_right ..)

end Adorn.Wire
