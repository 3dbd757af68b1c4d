import Adorn.Proofs.Json.Trees
import Adorn.Proofs.Wire.Nodes

/-!
# Decoders on the text

What the decoders of strings, flags, lists and tagged values make of a
text. The result is always of the form of `Reads`: the value if the text
nests no deeper than allowed, and `nestedTooDeep` otherwise.

A tagged value is decoded straight off the text, its parts however are
read into trees. `Tagged.open_ends` follows the loop over the entries of
an object and shows that it does to the text what `collect` does to the
tree.
-/

namespace Adorn.Wire

open Json

namespace Decoder

variable {α β : Type}

theorem bind_ok {x : Decoder α} {f : α → Decoder β} {levels : Nat} {s rest : List Char} {a : α}
    (h : x levels s = .ok (a, rest)) : (x >>= f) levels s = f a levels rest :=
  Reader.bind_ok (f := fun a => f a levels) h

theorem bind_error {x : Decoder α} {f : α → Decoder β} {levels : Nat} {s : List Char} {e : Error}
    (h : x levels s = .error e) : (x >>= f) levels s = .error e :=
  Reader.bind_error (f := fun a => f a levels) h

theorem bind_ite {c : Prop} [Decidable c] {x : Decoder α} {f : α → Decoder β} {levels : Nat}
    {s rest : List Char} {a : α} {e : Error}
    (h : x levels s = if c then .ok (a, rest) else .error e) :
    (x >>= f) levels s = if c then f a levels rest else .error e :=
  Reader.bind_ite (f := fun a => f a levels) h

theorem bind_eq_ok {x : Decoder α} {f : α → Decoder β} {levels : Nat} {s rest : List Char}
    {b : β} :
    (x >>= f) levels s = .ok (b, rest) ↔
      ∃ a s', x levels s = .ok (a, s') ∧ f a levels s' = .ok (b, rest) := by
  cases hx : x levels s with
  | error e =>
      rw [bind_error hx]
      exact iff_of_false (fun h => nomatch h) fun ⟨_, _, h, _⟩ => nomatch h
  | ok r =>
      obtain ⟨a, s'⟩ := r
      rw [bind_ok hx]
      constructor
      · intro h
        exact ⟨a, s', rfl, h⟩
      · intro h'
        obtain ⟨a', t, ⟨⟩, h⟩ := h'
        exact h

theorem lift_eq_ok {x : Except Error α} {levels : Nat} {s rest : List Char} {a : α} :
    (liftM x : Decoder α) levels s = .ok (a, rest) ↔ x = .ok a ∧ rest = s := by
  cases x with
  | error e => exact iff_of_false (fun h => nomatch h) fun h => nomatch h.1
  | ok b =>
      show (.ok (b, s) : Except Error (α × List Char)) = .ok (a, rest) ↔ _
      simp only [Except.ok.injEq, Prod.mk.injEq, eq_comm (a := s)]

/-- What is made of a value, without reading on, is read off the same piece. -/
theorem bind_reads {d : Decoder α} {p : Piece} {a : α} (h : Reads d p a) {f : α → Decoder β}
    {b : β} (hf : ∀ levels s, f a levels s = .ok (b, s)) : Reads (d >>= f) p b where
  begins := h.begins
  run levels _ rest hb hrest := by
    rw [bind_ite (h.run levels hb hrest), hf]

/-- A decoder takes a document if it leaves nothing but blanks. -/
theorem run_eq_ok {d : Decoder α} {text : String} {a : α} :
    d.run text = .ok a ↔ ∃ b, d maxNesting text.toList = .ok (a, b) ∧ Blanks b := by
  refine Wire.bind_eq_ok.trans ⟨?_, ?_⟩
  · intro h'
    obtain ⟨⟨a', b⟩, hrun, h⟩ := h'
    by_cases hb : b.all isSpace = true
    · simp only [if_pos hb] at h
      cases h
      exact ⟨b, hrun, List.all_eq_true.mp hb⟩
    · simp only [if_neg hb] at h
      cases h
  · intro h'
    obtain ⟨b, hrun, hb⟩ := h'
    refine ⟨⟨a, b⟩, hrun, ?_⟩
    simp only [if_pos (List.all_eq_true.mpr hb)]
    rfl

/-- A document is read like the piece it holds, whatever blanks stand around it. -/
theorem run_of_reads {d : Decoder α} {p : Piece} {a : α} (h : Reads d p a) {text : String}
    {b b' : List Char} (hb : Blanks b) (hb' : Blanks b')
    (htext : text.toList = b ++ (p.text ++ b')) :
    d.run text = if p.nesting ≤ maxNesting then .ok a else .error .nestedTooDeep := by
  have hrest : Delimited b' := by
    rw [← List.append_nil b']
    exact .blanks hb' .nil
  have hrun := h.run maxNesting hb hrest
  rw [← htext] at hrun
  by_cases hfits : p.nesting ≤ maxNesting
  · rw [if_pos hfits] at hrun ⊢
    exact run_eq_ok.mpr ⟨b', hrun, hb'⟩
  · rw [if_neg hfits] at hrun ⊢
    rw [run, Reader.document, hrun]
    rfl

/-- A decoder that starts with the form of the next value goes on from that form. -/
theorem form_bind {f : Form → Decoder α} {levels : Nat} {b s rest : List Char} {g : Form}
    (hb : Blanks b) (h : form s = .ok (g, rest)) :
    ((liftM form : Decoder Form) >>= f) levels (b ++ s) = f g levels rest :=
  Reader.bind_ok (f := fun g => f g levels) ((form_blanks hb s).trans h)

/-- Entering a container takes one level and its bracket. -/
theorem inside_run {d : Decoder α} {n : Nat} {a : α} {c : Char} {t rest : List Char}
    (h : ∀ levels, d levels (t ++ rest)
      = if n ≤ levels then .ok (a, rest) else .error .nestedTooDeep) (levels : Nat) :
    inside d levels (c :: (t ++ rest))
      = if n + 1 ≤ levels then .ok (a, rest) else .error .nestedTooDeep := by
  cases levels with
  | zero =>
      rw [if_neg (Nat.not_succ_le_zero _)]
      rfl
  | succ levels =>
      rw [inside, Reader.bind_ok (advance_cons c _), h levels]
      simp only [Nat.succ_le_succ_iff]

theorem text_reads {s : String} {t : List Char} (h : StringText s t) :
    Reads text ⟨t, 0⟩ s where
  begins := (ScalarText.string h).begins
  run levels _ rest hb hrest := by
    rw [text, form_bind hb (form_scalar (.string h) hrest), if_pos (Nat.zero_le _)]
    rfl

theorem flag_reads {b : Bool} {t : List Char} (h : ScalarText (.boolean b) t) :
    Reads flag ⟨t, 0⟩ b where
  begins := h.begins
  run levels _ rest hb hrest := by
    rw [flag, form_bind hb (form_scalar h hrest), if_pos (Nat.zero_le _)]
    rfl

theorem nullable_null (d : Decoder α) : Reads (nullable d) Piece.null none where
  begins := ⟨_, _, rfl, by decide, by decide⟩
  run levels b rest hb hrest := by
    have hpeek : (liftM peek : Decoder (Option Char)) levels (b ++ (Piece.null.text ++ rest))
        = .ok (some 'n', Piece.null.text ++ rest) := peek_blanks hb _
    have hzero : Piece.null.nesting ≤ levels := Nat.zero_le _
    rw [nullable, bind_ok hpeek, if_pos rfl, if_pos hzero]
    rfl

/-- What does not start like null is read as it is. -/
theorem nullable_reads {d : Decoder α} {p : Piece} {a : α} (h : Reads d p a)
    (hhead : p.text.head? ≠ some 'n') : Reads (nullable d) p (some a) where
  begins := h.begins
  run levels b rest hb hrest := by
    obtain ⟨c, u, hcu, hspace, -⟩ := h.begins
    have hpeek : (liftM peek : Decoder (Option Char)) levels (b ++ (p.text ++ rest))
        = .ok (some c, p.text ++ rest) := by
      show peek (b ++ (p.text ++ rest)) = _
      rw [peek_blanks hb, hcu, List.cons_append, peek_cons hspace]
    have hc : ¬some c = some 'n' := by
      rw [hcu] at hhead
      exact hhead
    have hrun : d levels (p.text ++ rest) = _ := h.run levels .nil hrest
    rw [nullable, bind_ok hpeek, if_neg hc]
    exact bind_ite hrun

theorem orDefault_null (d : Decoder α) (a : α) : Reads (orDefault d a) Piece.null a :=
  bind_reads (nullable_null d) fun _ _ => rfl

theorem orDefault_reads {d : Decoder α} {p : Piece} {a : α} (h : Reads d p a)
    (hhead : p.text.head? ≠ some 'n') (default : α) : Reads (orDefault d default) p a :=
  bind_reads (nullable_reads h hhead) fun _ _ => rfl

/-- A list is decoded item by item. -/
theorem list_reads {d : Decoder α} {ps : List (Piece × α)} {t : List Char}
    (hps : ∀ p ∈ ps, Reads d p.1 p.2) (ht : ItemsText true (ps.map fun p => p.1.text) t) :
    Reads (list d) ⟨'[' :: t, depth (ps.map Prod.fst) + 1⟩ (ps.map Prod.snd) where
  begins := ⟨_, _, rfl, by decide, by decide⟩
  run levels _ rest hb hrest := by
    rw [list, List.cons_append, form_bind hb (form_sequence _)]
    exact inside_run (items_reads hps ht · rest) levels

end Decoder

namespace Tagged

variable {κ : Type} {t : Tagged κ}

/-- A value that nests no deeper than allowed. -/
def within (levels : Nat) : Buffer Value := fun v =>
  if v.nesting ≤ levels then .ok v else .error .nestedTooDeep

/-- A tag on the text is decoded like the same tag at the root of a tree. -/
theorem tag_spelled {v : Value} {p : List Char} (h : v.Spelled p) {b rest : List Char}
    (hb : Blanks b) (hrest : Delimited rest) :
    t.tag (b ++ (p ++ rest)) = (t.tagAt .root v).map fun k => (k, rest) := by
  cases v with
  | scalar s =>
      simp only [Value.Spelled] at h
      rw [tag, Reader.bind_ok ((form_blanks hb _).trans (form_scalar h hrest))]
      cases s with
      | string s =>
          show (liftM (t.ofName s) : Reader κ) rest = (t.ofName s).map fun k => (k, rest)
          cases t.ofName s <;> rfl
      | null | boolean _ | number _ => rfl
  | array vs =>
      simp only [Value.Spelled] at h
      obtain ⟨ps, inner, rfl, -, -⟩ := h
      rw [tag, List.cons_append, Reader.bind_ok ((form_blanks hb _).trans (form_sequence _))]
      rfl
  | object es =>
      simp only [Value.Spelled] at h
      obtain ⟨ps, inner, rfl, -, -⟩ := h
      rw [tag, List.cons_append, Reader.bind_ok ((form_blanks hb _).trans (form_map _))]
      rfl

theorem openStep_close {b : List Char} (hb : Blanks b) (levels : Nat) (state : Open κ)
    (rest : List Char) :
    t.openStep levels state (b ++ '\x7d' :: rest)
      = match state.tag with
        | none => .error (.missingField tagKey)
        | some k => .ok (.inr (k, .keyed state.entries.toList), rest) := by
  rw [openStep, Reader.bind_ok (moreEntries_close hb _ rest), if_neg Bool.false_ne_true]
  cases state.tag <;> rfl

/-- A round that meets the tag. -/
theorem openStep_tag {v : Value} {l p s c d rest : List Char} (hl : StringText tagKey l)
    (hv : v.Spelled p) (hc : Blanks c) (hd : Blanks d) (hrest : Delimited rest) (state : Open κ)
    (hmore : moreEntries state.first s = .ok (true, l ++ (c ++ ':' :: (d ++ (p ++ rest)))))
    (levels : Nat) :
    t.openStep levels state s
      = match state.tag with
        | some _ => .error (.repeatedField tagKey)
        | none => (t.tagAt .root v).map fun k =>
            (.inl { state with first := false, tag := some k }, rest) := by
  rw [openStep, Reader.bind_ok hmore, if_pos rfl, Reader.bind_ok (key_append hl _), if_pos rfl]
  cases htag : state.tag with
  | some k => rfl
  | none =>
      have hread := tag_spelled (t := t) hv hd hrest
      simp only [Option.isSome_none, Bool.false_eq_true, if_false]
      rw [Reader.bind_ok (colon_append hc _)]
      cases hk : t.tagAt .root v with
      | error e =>
          rw [hk] at hread
          exact Reader.bind_error hread
      | ok k =>
          rw [hk] at hread
          exact Reader.bind_ok hread

/-- A round that meets another entry. -/
theorem openStep_entry {k : String} {v : Value} {l p s c d rest : List Char}
    (hl : StringText k l) (hne : k ≠ tagKey) (hv : v.Spelled p) (hc : Blanks c) (hd : Blanks d)
    (hrest : Delimited rest) (state : Open κ)
    (hmore : moreEntries state.first s = .ok (true, l ++ (c ++ ':' :: (d ++ (p ++ rest)))))
    (levels : Nat) :
    t.openStep levels state s
      = (within levels v).map fun v =>
          (.inl { state with first := false, entries := state.entries.push (k, v) }, rest) := by
  rw [openStep, Reader.bind_ok hmore, if_pos rfl, Reader.bind_ok (key_append hl _), if_neg hne,
    Reader.bind_ok (colon_append hc _)]
  have hread := hv.reads.run levels hd hrest
  by_cases hfits : v.nesting ≤ levels
  · rw [if_pos hfits] at hread
    rw [within, if_pos hfits]
    exact Reader.bind_ok hread
  · rw [if_neg hfits] at hread
    rw [within, if_neg hfits]
    exact Reader.bind_error hread

/-- The loop over the entries of a tagged object takes the tag out of them. -/
theorem open_ends (levels : Nat) : {es : List (String × Value)} →
    {ps : List (List Char × List Char)} → {first : Bool} → {s : List Char} →
      SpelledEntries es ps → EntriesText first ps s →
      (tag : Option κ) → (acc : Array (String × Value)) → (rest : List Char) →
        Reader.Ends (t.openStep levels) ⟨first, tag, acc⟩ (s ++ rest)
          ((collect (t.tagAt .root) (within levels) tag es).map fun (k, more) =>
            ((k, .keyed (acc.toList ++ more)), rest))
  | [], ps, first, s, hes, hs, tag, acc, rest => by
      simp only [SpelledEntries] at hes
      subst hes
      cases hs with
      | close hb =>
          rw [List.append_assoc, List.singleton_append]
          have hstep := openStep_close (t := t) hb levels ⟨first, tag, acc⟩ rest
          cases tag with
          | none => exact .failed hstep
          | some k =>
              simp only [collect, Except.map, List.append_nil]
              exact .done hstep
  | (k, v) :: es, ps, first, s, hes, hs, tag, acc, rest => by
      simp only [SpelledEntries] at hes
      obtain ⟨l, p, ps', rfl, hl, hv, hes'⟩ := hes
      obtain ⟨c, d, u, hc, hd, hu, hmore, hlt⟩ := hs.next_entry hl.quote rest
      have hshort : (u ++ rest).length < (s ++ rest).length := by
        simp only [List.length_append]
        omega
      by_cases hk : k = tagKey
      · subst hk
        have hstep := openStep_tag (t := t) hl hv hc hd (hu.delimited rest) ⟨first, tag, acc⟩
          hmore levels
        cases tag with
        | some j =>
            simp only [collect, if_true]
            exact .failed hstep
        | none =>
            simp only [collect, if_true]
            cases hj : t.tagAt .root v with
            | error e =>
                simp only [hj] at hstep
                exact .failed hstep
            | ok j =>
                simp only [hj] at hstep
                exact .next hstep hshort (open_ends levels hes' hu (some j) acc rest)
      · have hstep := openStep_entry (t := t) hl hk hv hc hd (hu.delimited rest)
          ⟨first, tag, acc⟩ hmore levels
        unfold collect
        simp only [if_neg hk]
        cases hw : within levels v with
        | error e =>
            simp only [hw] at hstep
            exact .failed hstep
        | ok w =>
            simp only [hw] at hstep
            have hends := open_ends levels hes' hu tag (acc.push (k, w)) rest
            refine .next hstep hshort ?_
            rw [Array.toList_push] at hends
            cases hrest : collect (t.tagAt .root) (within levels) tag es with
            | error e =>
                rw [hrest] at hends
                exact hends
            | ok r =>
                rw [hrest] at hends
                simp only [Except.map, List.append_assoc, List.singleton_append] at hends
                exact hends

/-- The kind and the parts of a tree, where `levels` levels may be entered. -/
def opened (t : Tagged κ) : (levels : Nat) → Value → Except Error (κ × Body)
  | _, .scalar s => .error (.wrongType (.scalar s) (.tagged t.type))
  | 0, _ => .error .nestedTooDeep
  | _ + 1, .array [] => .error (.missingField tagKey)
  | levels + 1, .array (v :: vs) => do
    let k ← t.tagAt .root v
    if nestingItems vs ≤ levels then .ok (k, .listed vs) else .error .nestedTooDeep
  | levels + 1, .object es => do
    let (k, more) ← collect (t.tagAt .root) (within levels) none es
    return (k, .keyed more)

theorem listed_spelled {vs : List Value} {ps : List (List Char)} {s : List Char}
    (hvs : SpelledItems vs ps) (hs : ItemsText true ps s) (levels : Nat) (rest : List Char) :
    t.listed levels (s ++ rest) = (t.opened (levels + 1) (.array vs)).map fun x => (x, rest) := by
  cases vs with
  | nil =>
      simp only [SpelledItems] at hvs
      subst hvs
      cases hs with
      | close hb =>
          rw [List.append_assoc, List.singleton_append, listed,
            Reader.bind_ok (moreItems_close hb _ rest), if_neg Bool.false_ne_true]
          rfl
  | cons v vs =>
      simp only [SpelledItems] at hvs
      obtain ⟨p, ps', rfl, hv, hvs'⟩ := hvs
      obtain ⟨u, hu, hmore, -⟩ := hs.next_item hv.begins rest
      obtain ⟨qs, rfl, rfl, hdepth, hqs⟩ := SpelledItems.pieces hvs'
      rw [listed, Reader.bind_ok hmore, if_pos rfl]
      have htag : t.tag (p ++ (u ++ rest)) = _ := tag_spelled hv .nil (hu.delimited rest)
      have hitems := items_reads hqs hu levels rest
      simp only [opened]
      cases hk : t.tagAt .root v with
      | error e =>
          rw [hk] at htag
          exact Reader.bind_error htag
      | ok k =>
          rw [hk] at htag
          rw [hdepth] at hitems
          rw [Reader.bind_ok htag]
          by_cases hfits : nestingItems (qs.map Prod.snd) ≤ levels
          · rw [if_pos hfits] at hitems
            rw [Reader.bind_ok hitems]
            simp only [bind, Except.bind, if_pos hfits]
            rfl
          · rw [if_neg hfits] at hitems
            rw [Reader.bind_error hitems]
            simp only [bind, Except.bind, if_neg hfits]
            rfl

/-- What is done to the text of a tree is what is done to the tree. -/
theorem decode_spelled {v : Value} {p b rest : List Char} (hv : v.Spelled p) (hb : Blanks b)
    (hrest : Delimited rest) (levels : Nat) :
    t.decode levels (b ++ (p ++ rest)) = (t.opened levels v).map fun x => (x, rest) := by
  cases v with
  | scalar s =>
      simp only [Value.Spelled] at hv
      rw [decode, Decoder.form_bind hb (form_scalar hv hrest)]
      rfl
  | array vs =>
      simp only [Value.Spelled] at hv
      obtain ⟨ps, inner, rfl, hinner, hps⟩ := hv
      rw [decode, List.cons_append, Decoder.form_bind hb (form_sequence _)]
      cases levels with
      | zero => rfl
      | succ levels =>
          exact (Reader.bind_ok (advance_cons _ _)).trans (listed_spelled hps hinner levels rest)
  | object es =>
      simp only [Value.Spelled] at hv
      obtain ⟨ps, inner, rfl, hinner, hps⟩ := hv
      rw [decode, List.cons_append, Decoder.form_bind hb (form_map _)]
      cases levels with
      | zero => rfl
      | succ levels =>
          have hends := open_ends (t := t) levels hps hinner none #[] rest
          refine (Reader.bind_ok (advance_cons _ _)).trans
            ((Reader.loop_eq_of_ends hends).trans ?_)
          simp only [opened]
          cases collect (t.tagAt .root) (within levels) none es <;> rfl

theorem within_eq_ok (levels : Nat) (v w : Value) (h : within levels v = .ok w) : w = v := by
  unfold within at h
  split at h
  · cases h
    rfl
  · cases h

theorem Names.nesting_eq_zero {p : Standing} {v : Value} {k : κ} (h : t.Names p v k) :
    v.nesting = 0 := by
  cases h <;> rfl

theorem opened_eq_ok (ht : t.Lawful) {k : κ} {body : Body} : {levels : Nat} → {v : Value} →
    v.nesting ≤ levels → (t.opened levels v = .ok (k, body) ↔ t.Node .root v k body)
  | _, .scalar s, _ => by
      refine iff_of_false (fun h => nomatch h) ?_
      intro h'
      cases h'
  | _ + 1, .array [], _ => by
      refine iff_of_false (fun h => nomatch h) ?_
      intro h'
      cases h'
  | levels + 1, .array (v :: vs), hv => by
      have hfits : nestingItems vs ≤ levels :=
        Nat.le_trans (Nat.le_max_right ..) (Nat.le_of_succ_le_succ hv)
      simp only [opened, if_pos hfits, bind_eq_ok, Except.ok.injEq, Prod.mk.injEq]
      constructor
      · intro h'
        obtain ⟨j, hj, rfl, rfl⟩ := h'
        exact .array ((tagAt_eq_ok ht).mp hj)
      · intro h
        cases h with
        | array hv => exact ⟨k, (tagAt_eq_ok ht).mpr hv, rfl, rfl⟩
  | levels + 1, .object es, hv => by
      have hfits : ∀ e ∈ es, e.1 ≠ tagKey → within levels e.2 = .ok e.2 := fun e he _ =>
        if_pos (Nat.le_trans (nesting_le_entries he) (Nat.le_of_succ_le_succ hv))
      simp only [opened, bind_eq_ok, pure, Except.pure, Except.ok.injEq, Prod.mk.injEq]
      rw [node_object ht]
      constructor
      · intro h'
        obtain ⟨⟨j, rest⟩, hrest, rfl, rfl⟩ := h'
        obtain ⟨hawaits, -, rfl⟩ := (collect_eq_ok (within_eq_ok levels) none es rest).mp hrest
        exact ⟨hawaits, rfl⟩
      · intro h'
        obtain ⟨hawaits, rfl⟩ := h'
        exact ⟨⟨k, _⟩,
          (collect_eq_ok (within_eq_ok levels) none es _).mpr ⟨hawaits, hfits, rfl⟩, rfl, rfl⟩

/-- What is too deep in a tagged object stands beside the tag, for a tag nests nothing. -/
theorem exists_too_deep {es : List (String × Value)} {w : Value} {k : κ} {levels : Nat}
    (htag : valuesAt tagKey es = [w]) (hk : t.Names .root w k)
    (hdeep : levels < nestingEntries es) :
    ∃ x ∈ es, x.1 ≠ tagKey ∧ within levels x.2 = .error .nestedTooDeep := by
  by_contra hnone
  have hes : nestingEntries es ≤ levels := by
    refine nestingEntries_le fun x hx => ?_
    by_contra hx'
    refine hnone ⟨x, hx, fun hkey => ?_, if_neg hx'⟩
    have hmem : x.2 ∈ valuesAt tagKey es := mem_valuesAt.mpr (hkey ▸ hx)
    rw [htag, List.mem_singleton] at hmem
    rw [hmem, hk.nesting_eq_zero] at hx'
    exact hx' (Nat.zero_le _)
  exact absurd hes (Nat.not_le_of_lt hdeep)

/-- A node that nests too deep is refused for that and nothing else. -/
theorem opened_eq_error (ht : t.Lawful) {k : κ} {body : Body} : {levels : Nat} → {v : Value} →
    t.Node .root v k body → levels < v.nesting → t.opened levels v = .error .nestedTooDeep
  | 0, .array vs, _, _ => rfl
  | 0, .object es, _, _ => rfl
  | levels + 1, .array (v :: vs), hnode, hdeep => by
      cases hnode with
      | array hk =>
          have hvs : ¬nestingItems vs ≤ levels := by
            simp only [Value.nesting, nestingItems, hk.nesting_eq_zero] at hdeep
            omega
          simp only [opened, (tagAt_eq_ok ht).mpr hk, if_neg hvs]
          rfl
  | levels + 1, .object es, hnode, hdeep => by
      cases hnode with
      | object htag hk =>
          have hkeep : ∀ v, within levels v = .ok v ∨ within levels v = .error .nestedTooDeep := by
            intro v
            unfold within
            split
            · exact .inl rfl
            · exact .inr rfl
          have hawaits := (tagField_awaits ht).mpr ⟨_, htag, hk⟩
          have hfail := exists_too_deep htag hk (Nat.lt_of_succ_lt_succ hdeep)
          simp only [opened, collect_eq_error hkeep hawaits hfail]
          rfl

/-- A tagged value is taken off the text exactly where the text spells a node. -/
theorem decode_eq_ok (ht : t.Lawful) {v : Value} {p b rest s : List Char} (hv : v.Spelled p)
    (hb : Blanks b) (hrest : Delimited rest) {levels : Nat} (hfits : v.nesting ≤ levels) {k : κ}
    {body : Body} :
    t.decode levels (b ++ (p ++ rest)) = .ok ((k, body), s) ↔
      t.Node .root v k body ∧ s = rest := by
  rw [decode_spelled hv hb hrest, ← opened_eq_ok ht hfits]
  cases t.opened levels v with
  | error e => exact iff_of_false (fun h => nomatch h) (fun h => nomatch h.1)
  | ok x => simp only [Except.map, Except.ok.injEq, Prod.mk.injEq, eq_comm (a := rest)]

/-- A piece that spells a node is decoded as its kind and parts. -/
theorem Node.reads (ht : t.Lawful) {v : Value} {p : Piece} {k : κ} {body : Body}
    (hnode : t.Node .root v k body) (hp : Spells v p) : Reads t.decode p (k, body) where
  begins := hp.text.begins
  run levels b rest hb hrest := by
    rw [decode_spelled hp.text hb hrest, hp.nesting]
    by_cases hfits : v.nesting ≤ levels
    · rw [if_pos hfits, (opened_eq_ok ht hfits).mpr hnode]
      rfl
    · rw [if_neg hfits, opened_eq_error ht hnode (Nat.lt_of_not_le hfits)]
      rfl

end Tagged

end Adorn.Wire
