import Adorn.Proofs.Json.Scalars

/-!
# Reading trees

A reader that knows how many arrays and objects it may still enter
gives the value of a text if the text nests no deeper, and otherwise
fails with `nestedTooDeep` and nothing else. `Reads` says so for one
text; `items_reads` and `entries_reads` carry it from the parts of an
array or an object to the whole, and `Value.Spelled.reads` is the result
for trees.
-/

namespace Adorn.Json

/-- A piece of a document and how many arrays and objects stand around one another in it. -/
structure Piece where
  text : List Char
  nesting : Nat

/-- The piece that is null. -/
def Piece.null : Piece := ⟨['n', 'u', 'l', 'l'], 0⟩

/-- A piece under a key; `label` is the spelling of the key. -/
structure Labelled extends Piece where
  key : String
  label : List Char

/-- The deepest nesting of several pieces. -/
def depth : List Piece → Nat
  | [] => 0
  | p :: ps => max p.nesting (depth ps)

/-- What a reader makes of a piece, with any blanks before it: `a` as long as it may enter so many
levels. -/
structure Reads {α : Type} (r : Nat → Reader α) (p : Piece) (a : α) : Prop where
  begins : Begins p.text
  run : ∀ (levels : Nat) {b rest : List Char}, Blanks b → Delimited rest →
    r levels (b ++ (p.text ++ rest))
      = if p.nesting ≤ levels then .ok (a, rest) else .error .nestedTooDeep

/-- The piece spells the tree. -/
structure Spells (v : Value) (p : Piece) : Prop where
  text : v.Spelled p.text
  nesting : p.nesting = v.nesting

theorem Blanks.nil : Blanks [] := fun _ h => nomatch h

theorem Begins.length_pos {t : List Char} (h : Begins t) : 0 < t.length := by
  obtain ⟨c, u, rfl, -, -⟩ := h
  exact Nat.succ_pos _

/-! ## Arrays -/

theorem moreItems_close {b : List Char} (hb : Blanks b) (first : Bool) (rest : List Char) :
    moreItems first (b ++ ']' :: rest) = .ok (false, ']' :: rest) := by
  have hpeek : peek (b ++ ']' :: rest) = .ok (some ']', ']' :: rest) := peek_blanks hb _
  rw [moreItems, Reader.bind_ok hpeek]
  rfl

theorem moreItems_first {b p : List Char} (hb : Blanks b) (hp : Begins p) (rest : List Char) :
    moreItems true (b ++ (p ++ rest)) = .ok (true, p ++ rest) := by
  obtain ⟨c, u, rfl, hspace, hclose⟩ := hp
  have hpeek : peek (b ++ (c :: u ++ rest)) = .ok (some c, c :: u ++ rest) := by
    rw [peek_blanks hb, List.cons_append, peek_cons hspace]
  rw [moreItems, Reader.bind_ok hpeek]
  simp only [if_neg hclose]
  rfl

theorem moreItems_next {b b' p : List Char} (hb : Blanks b) (hb' : Blanks b') (hp : Begins p)
    (rest : List Char) :
    moreItems false (b ++ ',' :: (b' ++ (p ++ rest))) = .ok (true, p ++ rest) := by
  obtain ⟨c, u, rfl, hspace, hclose⟩ := hp
  have hpeek : peek (b ++ ',' :: (b' ++ (c :: u ++ rest)))
      = .ok (some ',', ',' :: (b' ++ (c :: u ++ rest))) := peek_blanks hb _
  have hpeek' : peek (b' ++ (c :: u ++ rest)) = .ok (some c, c :: u ++ rest) := by
    rw [peek_blanks hb', List.cons_append, peek_cons hspace]
  have hcomma : ¬(',' : Char) = ']' := by decide
  rw [moreItems, Reader.bind_ok hpeek]
  simp only [if_neg hcomma, Bool.false_eq_true, if_false, if_true]
  rw [Reader.bind_ok (advance_cons _ _), Reader.bind_ok hpeek']
  simp only [if_neg hclose]
  rfl

/-- The next item of an array, whether or not a comma stands before it. -/
theorem ItemsText.next_item {first : Bool} {p t : List Char} {ps : List (List Char)}
    (h : ItemsText first (p :: ps) t) (hp : Begins p) (rest : List Char) :
    ∃ u, ItemsText false ps u ∧ moreItems first (t ++ rest) = .ok (true, p ++ (u ++ rest))
      ∧ u.length < t.length := by
  have hpos := hp.length_pos
  cases h with
  | @first b _ u _ hb hu =>
      refine ⟨u, hu, ?_, ?_⟩
      · simp only [List.append_assoc]
        exact moreItems_first hb hp _
      · simp only [List.length_append]
        omega
  | @next b b' _ u _ hb hb' hu =>
      refine ⟨u, hu, ?_, ?_⟩
      · simp only [List.append_assoc, List.cons_append]
        exact moreItems_next hb hb' hp _
      · simp only [List.length_append, List.length_cons]
        omega

section Items

variable {α : Type} {r : Nat → Reader α}

theorem itemStep_close {b : List Char} (hb : Blanks b) (item : Reader α) (first : Bool)
    (acc : Array α) (rest : List Char) :
    itemStep item (first, acc) (b ++ ']' :: rest) = .ok (.inr acc.toList, rest) := by
  rw [itemStep, Reader.bind_ok (moreItems_close hb first rest)]
  rfl

/-- A round of reading an array takes its next item. -/
theorem itemStep_item {p : Piece} {a : α} (hp : Reads r p a) (levels : Nat) {first : Bool}
    {s rest : List Char} (hmore : moreItems first s = .ok (true, p.text ++ rest))
    (hrest : Delimited rest) (acc : Array α) :
    itemStep (r levels) (first, acc) s
      = if p.nesting ≤ levels then .ok (.inl (false, acc.push a), rest)
        else .error .nestedTooDeep := by
  have hrun : r levels (p.text ++ rest) = _ := hp.run levels .nil hrest
  rw [itemStep, Reader.bind_ok hmore, if_pos rfl]
  exact Reader.bind_ite hrun

theorem items_ends (levels : Nat) : ∀ {ps : List (Piece × α)} {first : Bool} {t : List Char},
    (∀ p ∈ ps, Reads r p.1 p.2) → ItemsText first (ps.map fun p => p.1.text) t →
      ∀ (acc : Array α) (rest : List Char),
        Reader.Ends (itemStep (r levels)) (first, acc) (t ++ rest)
          (if depth (ps.map Prod.fst) ≤ levels
            then .ok (acc.toList ++ ps.map Prod.snd, rest) else .error .nestedTooDeep)
  | [], first, t, _, ht, acc, rest => by
      cases ht with
      | close hb =>
          simp only [List.map_nil, depth, Nat.zero_le, if_true, List.append_nil,
            List.append_assoc]
          exact .done (itemStep_close hb _ first acc rest)
  | (p, a) :: ps, first, t, hps, ht, acc, rest => by
      obtain ⟨hp, hps'⟩ := List.forall_mem_cons.mp hps
      obtain ⟨u, hu, hmore, hlt⟩ := ht.next_item hp.begins rest
      have hstep := itemStep_item hp levels hmore (hu.delimited rest) acc
      have hend := items_ends levels hps' hu (acc.push a) rest
      rw [Array.toList_push, List.append_assoc] at hend
      simp only [List.map_cons, depth, Nat.max_le]
      refine .next_ite hstep ?_ hend
      simp only [List.length_append]
      omega

/-- An array is read item by item. -/
theorem items_reads {ps : List (Piece × α)} {first : Bool} {t : List Char}
    (hps : ∀ p ∈ ps, Reads r p.1 p.2) (ht : ItemsText first (ps.map fun p => p.1.text) t)
    (levels : Nat) (rest : List Char) :
    items (r levels) first (t ++ rest)
      = if depth (ps.map Prod.fst) ≤ levels then .ok (ps.map Prod.snd, rest)
        else .error .nestedTooDeep :=
  Reader.loop_eq_of_ends (items_ends levels hps ht #[] rest)

end Items

/-! ## Objects -/

theorem moreEntries_close {b : List Char} (hb : Blanks b) (first : Bool) (rest : List Char) :
    moreEntries first (b ++ '\x7d' :: rest) = .ok (false, '\x7d' :: rest) := by
  have hpeek : peek (b ++ '\x7d' :: rest) = .ok (some '\x7d', '\x7d' :: rest) := peek_blanks hb _
  rw [moreEntries, Reader.bind_ok hpeek]
  rfl

theorem moreEntries_first {b : List Char} (hb : Blanks b) (rest : List Char) :
    moreEntries true (b ++ '"' :: rest) = .ok (true, '"' :: rest) := by
  have hpeek : peek (b ++ '"' :: rest) = .ok (some '"', '"' :: rest) := peek_blanks hb _
  rw [moreEntries, Reader.bind_ok hpeek]
  rfl

theorem moreEntries_next {b b' : List Char} (hb : Blanks b) (hb' : Blanks b') (rest : List Char) :
    moreEntries false (b ++ ',' :: (b' ++ '"' :: rest)) = .ok (true, '"' :: rest) := by
  have hpeek : peek (b ++ ',' :: (b' ++ '"' :: rest))
      = .ok (some ',', ',' :: (b' ++ '"' :: rest)) := peek_blanks hb _
  have hpeek' : peek (b' ++ '"' :: rest) = .ok (some '"', '"' :: rest) := peek_blanks hb' _
  rw [moreEntries, Reader.bind_ok hpeek]
  exact (Reader.bind_ok (advance_cons _ _)).trans (Reader.bind_ok hpeek')

theorem StringText.quote {s : String} {t : List Char} (h : StringText s t) :
    ∃ u, t = '"' :: u := by
  obtain ⟨_⟩ := h
  exact ⟨_, rfl⟩

theorem key_append {k : String} {t : List Char} (h : StringText k t) (rest : List Char) :
    key (t ++ rest) = .ok (k, rest) := by
  obtain ⟨h⟩ := h
  rw [key, List.cons_append, List.append_assoc, Reader.bind_ok (advance_cons _ _)]
  exact string_charsText h rest

theorem colon_append {c : List Char} (hc : Blanks c) (rest : List Char) :
    colon (c ++ ':' :: rest) = .ok ((), rest) := by
  have hpeek : peek (c ++ ':' :: rest) = .ok (some ':', ':' :: rest) := peek_blanks hc _
  rw [colon, Reader.bind_ok hpeek]
  rfl

/-- The next entry of an object, whether or not a comma stands before it. -/
theorem EntriesText.next_entry {first : Bool} {l p t : List Char}
    {ps : List (List Char × List Char)} (h : EntriesText first ((l, p) :: ps) t)
    (hl : ∃ l', l = '"' :: l') (rest : List Char) :
    ∃ c d u, Blanks c ∧ Blanks d ∧ EntriesText false ps u
      ∧ moreEntries first (t ++ rest)
        = .ok (true, l ++ (c ++ ':' :: (d ++ (p ++ (u ++ rest)))))
      ∧ u.length < t.length := by
  obtain ⟨l', rfl⟩ := hl
  cases h with
  | @first b c d _ _ u _ hb hc hd hu =>
      refine ⟨c, d, u, hc, hd, hu, ?_, ?_⟩
      · simp only [List.append_assoc, List.cons_append]
        exact moreEntries_first hb _
      · simp only [List.length_append, List.length_cons]
        omega
  | @next b b' c d _ _ u _ hb hb' hc hd hu =>
      refine ⟨c, d, u, hc, hd, hu, ?_, ?_⟩
      · simp only [List.append_assoc, List.cons_append]
        exact moreEntries_next hb hb' _
      · simp only [List.length_append, List.length_cons]
        omega

section Entries

variable {α : Type} {r : Nat → Reader α}

theorem entryStep_close {b : List Char} (hb : Blanks b) (value : Reader α) (first : Bool)
    (acc : Array (String × α)) (rest : List Char) :
    entryStep value (first, acc) (b ++ '\x7d' :: rest) = .ok (.inr acc.toList, rest) := by
  rw [entryStep, Reader.bind_ok (moreEntries_close hb first rest)]
  rfl

/-- A round of reading an object takes its next entry. -/
theorem entryStep_entry {p : Labelled} {a : α} (hl : StringText p.key p.label)
    (hp : Reads r p.toPiece a) (levels : Nat) {first : Bool} {s c d rest : List Char}
    (hc : Blanks c) (hd : Blanks d)
    (hmore : moreEntries first s = .ok (true, p.label ++ (c ++ ':' :: (d ++ (p.text ++ rest)))))
    (hrest : Delimited rest) (acc : Array (String × α)) :
    entryStep (r levels) (first, acc) s
      = if p.nesting ≤ levels then .ok (.inl (false, acc.push (p.key, a)), rest)
        else .error .nestedTooDeep := by
  rw [entryStep, Reader.bind_ok hmore, if_pos rfl, Reader.bind_ok (key_append hl _),
    Reader.bind_ok (colon_append hc _)]
  exact Reader.bind_ite (hp.run levels hd hrest)

theorem entries_ends (levels : Nat) : ∀ {ps : List (Labelled × α)} {first : Bool}
    {t : List Char}, (∀ p ∈ ps, StringText p.1.key p.1.label ∧ Reads r p.1.toPiece p.2) →
      EntriesText first (ps.map fun p => (p.1.label, p.1.text)) t →
      ∀ (acc : Array (String × α)) (rest : List Char),
        Reader.Ends (entryStep (r levels)) (first, acc) (t ++ rest)
          (if depth (ps.map fun p => p.1.toPiece) ≤ levels
            then .ok (acc.toList ++ ps.map fun p => (p.1.key, p.2), rest)
            else .error .nestedTooDeep)
  | [], first, t, _, ht, acc, rest => by
      cases ht with
      | close hb =>
          simp only [List.map_nil, depth, Nat.zero_le, if_true, List.append_nil,
            List.append_assoc]
          exact .done (entryStep_close hb _ first acc rest)
  | (p, a) :: ps, first, t, hps, ht, acc, rest => by
      obtain ⟨⟨hl, hp⟩, hps'⟩ := List.forall_mem_cons.mp hps
      obtain ⟨c, d, u, hc, hd, hu, hmore, hlt⟩ := ht.next_entry hl.quote rest
      have hstep := entryStep_entry hl hp levels hc hd hmore (hu.delimited rest) acc
      have hend := entries_ends levels hps' hu (acc.push (p.key, a)) rest
      rw [Array.toList_push, List.append_assoc] at hend
      simp only [List.map_cons, depth, Nat.max_le]
      refine .next_ite hstep ?_ hend
      simp only [List.length_append]
      omega

/-- An object is read entry by entry. -/
theorem entries_reads {ps : List (Labelled × α)} {t : List Char}
    (hps : ∀ p ∈ ps, StringText p.1.key p.1.label ∧ Reads r p.1.toPiece p.2)
    (ht : EntriesText true (ps.map fun p => (p.1.label, p.1.text)) t) (levels : Nat)
    (rest : List Char) :
    entries (r levels) (t ++ rest)
      = if depth (ps.map fun p => p.1.toPiece) ≤ levels
          then .ok (ps.map fun p => (p.1.key, p.2), rest) else .error .nestedTooDeep :=
  Reader.loop_eq_of_ends (entries_ends levels hps ht #[] rest)

end Entries

/-! ## Trees -/

/-- A value is read by its form, so blanks before it make no difference. -/
theorem value_blanks {b : List Char} (hb : Blanks b) (levels : Nat) (s : List Char) :
    value levels (b ++ s) = value levels s := by
  cases levels <;> simp only [value, valueWith, bind, StateT.bind, form_blanks hb]

theorem value_scalar {s : Scalar} {levels : Nat} {t rest : List Char}
    (h : form t = .ok (.scalar s, rest)) : value levels t = .ok (.scalar s, rest) := by
  cases levels <;> rw [value, valueWith, Reader.bind_ok h] <;> rfl

theorem value_sequence_zero (t : List Char) : value 0 ('[' :: t) = .error .nestedTooDeep := rfl

theorem value_sequence (levels : Nat) (t : List Char) :
    value (levels + 1) ('[' :: t) = (Value.array <$> items (value levels) true) t := by
  rw [value, valueWith, Reader.bind_ok (form_sequence t)]
  rfl

theorem value_map_zero (t : List Char) : value 0 ('\x7b' :: t) = .error .nestedTooDeep := rfl

theorem value_map (levels : Nat) (t : List Char) :
    value (levels + 1) ('\x7b' :: t) = (Value.object <$> entries (value levels)) t := by
  rw [value, valueWith, Reader.bind_ok (form_map t)]
  rfl

theorem reads_scalar {s : Scalar} {t : List Char} (h : ScalarText s t) :
    Reads value ⟨t, 0⟩ (.scalar s) where
  begins := h.begins
  run levels _ _ hb hrest := by
    rw [value_blanks hb, if_pos (Nat.zero_le _)]
    exact value_scalar (form_scalar h hrest)

theorem reads_array {ps : List (Piece × Value)} {t : List Char}
    (hps : ∀ p ∈ ps, Reads value p.1 p.2) (ht : ItemsText true (ps.map fun p => p.1.text) t) :
    Reads value ⟨'[' :: t, depth (ps.map Prod.fst) + 1⟩ (.array (ps.map Prod.snd)) where
  begins := ⟨_, _, rfl, by decide, by decide⟩
  run levels _ rest hb hrest := by
    rw [value_blanks hb, List.cons_append]
    cases levels with
    | zero =>
        rw [value_sequence_zero, if_neg (Nat.not_succ_le_zero _)]
    | succ levels =>
        rw [value_sequence]
        have hread := items_reads hps ht levels rest
        by_cases hfits : depth (ps.map Prod.fst) ≤ levels
        · rw [if_pos hfits] at hread
          rw [if_pos (Nat.succ_le_succ hfits)]
          exact Reader.map_ok hread
        · rw [if_neg hfits] at hread
          rw [if_neg fun h => hfits (Nat.le_of_succ_le_succ h)]
          exact Reader.map_error hread

theorem reads_object {ps : List (Labelled × Value)} {t : List Char}
    (hps : ∀ p ∈ ps, StringText p.1.key p.1.label ∧ Reads value p.1.toPiece p.2)
    (ht : EntriesText true (ps.map fun p => (p.1.label, p.1.text)) t) :
    Reads value ⟨'\x7b' :: t, depth (ps.map fun p => p.1.toPiece) + 1⟩
      (.object (ps.map fun p => (p.1.key, p.2))) where
  begins := ⟨_, _, rfl, by decide, by decide⟩
  run levels _ rest hb hrest := by
    rw [value_blanks hb, List.cons_append]
    cases levels with
    | zero =>
        rw [value_map_zero, if_neg (Nat.not_succ_le_zero _)]
    | succ levels =>
        rw [value_map]
        have hread := entries_reads hps ht levels rest
        by_cases hfits : depth (ps.map fun p => p.1.toPiece) ≤ levels
        · rw [if_pos hfits] at hread
          rw [if_pos (Nat.succ_le_succ hfits)]
          exact Reader.map_ok hread
        · rw [if_neg hfits] at hread
          rw [if_neg fun h => hfits (Nat.le_of_succ_le_succ h)]
          exact Reader.map_error hread

mutual

/-- A text that spells a tree is read as that tree. -/
theorem Value.Spelled.reads : ∀ {v : Value} {t : List Char}, v.Spelled t →
    Reads value ⟨t, v.nesting⟩ v
  | .scalar s, t, h => by
      simp only [Value.Spelled] at h
      exact reads_scalar h
  | .array vs, t, h => by
      simp only [Value.Spelled] at h
      obtain ⟨ps, inner, rfl, hinner, hps⟩ := h
      obtain ⟨qs, rfl, rfl, hdepth, hqs⟩ := SpelledItems.pieces hps
      rw [Value.nesting, ← hdepth]
      exact reads_array hqs hinner
  | .object es, t, h => by
      simp only [Value.Spelled] at h
      obtain ⟨ps, inner, rfl, hinner, hps⟩ := h
      obtain ⟨qs, rfl, rfl, hdepth, hqs⟩ := SpelledEntries.pieces hps
      rw [Value.nesting, ← hdepth]
      exact reads_object hqs hinner

theorem SpelledItems.pieces : ∀ {vs : List Value} {ps : List (List Char)}, SpelledItems vs ps →
    ∃ qs : List (Piece × Value), qs.map (fun q => q.1.text) = ps ∧ qs.map Prod.snd = vs
      ∧ depth (qs.map Prod.fst) = nestingItems vs ∧ ∀ q ∈ qs, Reads value q.1 q.2
  | [], ps, h => by
      simp only [SpelledItems] at h
      exact ⟨[], h.symm, rfl, by simp [depth, nestingItems], by simp⟩
  | v :: vs, ps, h => by
      simp only [SpelledItems] at h
      obtain ⟨p, ps', rfl, hv, hvs⟩ := h
      obtain ⟨qs, rfl, rfl, hdepth, hqs⟩ := SpelledItems.pieces hvs
      refine ⟨(⟨p, v.nesting⟩, v) :: qs, rfl, rfl, ?_, ?_⟩
      · simp only [List.map_cons, depth, nestingItems, hdepth]
      · exact List.forall_mem_cons.mpr ⟨hv.reads, hqs⟩

theorem SpelledEntries.pieces : ∀ {es : List (String × Value)}
    {ps : List (List Char × List Char)}, SpelledEntries es ps →
    ∃ qs : List (Labelled × Value), qs.map (fun q => (q.1.label, q.1.text)) = ps
      ∧ qs.map (fun q => (q.1.key, q.2)) = es
      ∧ depth (qs.map fun q => q.1.toPiece) = nestingEntries es
      ∧ ∀ q ∈ qs, StringText q.1.key q.1.label ∧ Reads value q.1.toPiece q.2
  | [], ps, h => by
      simp only [SpelledEntries] at h
      exact ⟨[], h.symm, rfl, by simp [depth, nestingEntries], by simp⟩
  | (k, v) :: es, ps, h => by
      simp only [SpelledEntries] at h
      obtain ⟨l, p, ps', rfl, hk, hv, hes⟩ := h
      obtain ⟨qs, rfl, rfl, hdepth, hqs⟩ := SpelledEntries.pieces hes
      refine ⟨(⟨⟨p, v.nesting⟩, k, l⟩, v) :: qs, rfl, rfl, ?_, ?_⟩
      · simp only [List.map_cons, depth, nestingEntries, hdepth]
      · exact List.forall_mem_cons.mpr ⟨⟨hk, hv.reads⟩, hqs⟩

end

end Adorn.Json
