import Adorn.Proofs.Json.Compact
import Adorn.Proofs.Wire.Records
import Mathlib.Data.List.Forall2

/-!
# Decoders that undo an encoding

An encoding turns values into trees. A decoder undoes it if it reads
every value off any text of its tree; this carries over from the parts
to lists and nullable values, and to records that are encoded as
objects.
-/

namespace Adorn.Json

/-- Of all values only null starts like null. -/
theorem head_ne_of_spelled {v : Value} {t : List Char} (h : v.Spelled t) (hv : v ≠ .null) :
    t.head? ≠ some 'n' := by
  cases v with
  | scalar s =>
      simp only [Value.Spelled] at h
      cases h with
      | null => exact absurd rfl hv
      | yes | no => decide
      | number ht _ =>
          obtain ⟨c, u, rfl, hc⟩ := ht.head
          exact fun heq => (numeralHead_ne hc).1 (Option.some.inj heq)
      | string ht =>
          obtain ⟨u, rfl⟩ := ht.quote
          simp
  | array vs =>
      simp only [Value.Spelled] at h
      obtain ⟨ps, inner, rfl, -, -⟩ := h
      simp
  | object es =>
      simp only [Value.Spelled] at h
      obtain ⟨ps, inner, rfl, -, -⟩ := h
      simp

theorem Spells.null {p : Piece} (h : Spells .null p) : p = Piece.null := by
  obtain ⟨text, nesting⟩ := p
  obtain ⟨htext, rfl⟩ := h
  simp only [Value.Spelled] at htext
  cases htext
  rfl

/-- The compact text of a tree spells it. -/
theorem Spells.chars {v : Value} (h : v.Whole) : Spells v ⟨v.chars, v.nesting⟩ :=
  ⟨h.spelled, rfl⟩

end Adorn.Json

namespace Adorn.Wire

open Json

/-- Every value is read off any piece that spells its tree. -/
def Decodes {α : Type} (d : Decoder α) (encode : α → Value) : Prop :=
  ∀ (x : α) (p : Piece), Spells (encode x) p → Reads d p x

/-! ## Scalars, nullable values and lists -/

namespace Decodes

variable {α : Type} {d : Decoder α} {encode : α → Value}

theorem text : Decodes Decoder.text .string := by
  rintro s ⟨t, n⟩ ⟨ht, rfl⟩
  simp only [Value.Spelled] at ht
  cases ht with
  | string ht => exact Decoder.text_reads ht

theorem flag : Decodes Decoder.flag .boolean := by
  rintro b ⟨t, n⟩ ⟨ht, rfl⟩
  simp only [Value.Spelled] at ht
  exact Decoder.flag_reads ht

theorem nullable (h : Decodes d encode) (hnull : ∀ x, encode x ≠ .null) :
    Decodes (Decoder.nullable d) fun x => x.elim .null encode := by
  intro x p hp
  cases x with
  | none =>
      rw [hp.null]
      exact Decoder.nullable_null d
  | some x => exact Decoder.nullable_reads (h x p hp) (head_ne_of_spelled hp.text (hnull x))

theorem orDefault (h : Decodes d encode) (hnull : ∀ x, encode x ≠ .null) (default : α) :
    Decodes (Decoder.orDefault d default) encode :=
  fun x p hp => Decoder.orDefault_reads (h x p hp) (head_ne_of_spelled hp.text (hnull x)) default

theorem items (h : Decodes d encode) : {xs : List α} → {ps : List (List Char)} →
    SpelledItems (xs.map encode) ps →
      ∃ qs : List (Piece × α), qs.map (fun q => q.1.text) = ps ∧ qs.map Prod.snd = xs
        ∧ depth (qs.map Prod.fst) = nestingItems (xs.map encode) ∧ ∀ q ∈ qs, Reads d q.1 q.2
  | [], ps, hps => by
      simp only [List.map_nil, SpelledItems] at hps
      exact ⟨[], hps.symm, rfl, by simp [depth, nestingItems], by simp⟩
  | x :: xs, ps, hps => by
      simp only [List.map_cons, SpelledItems] at hps
      obtain ⟨p, ps', rfl, hx, hxs⟩ := hps
      obtain ⟨qs, rfl, rfl, hdepth, hqs⟩ := h.items hxs
      refine ⟨(⟨p, (encode x).nesting⟩, x) :: qs, rfl, rfl, ?_, ?_⟩
      · simp only [List.map_cons, depth, nestingItems, hdepth]
      · exact List.forall_mem_cons.mpr ⟨h x _ ⟨hx, rfl⟩, hqs⟩

theorem list (h : Decodes d encode) :
    Decodes (Decoder.list d) fun xs => .array (xs.map encode) := by
  rintro xs ⟨t, n⟩ ⟨ht, rfl⟩
  simp only [Value.Spelled] at ht
  obtain ⟨ps, inner, rfl, hinner, hps⟩ := ht
  obtain ⟨qs, rfl, rfl, hdepth, hqs⟩ := h.items hps
  rw [Value.nesting, ← hdepth]
  exact Decoder.list_reads hqs hinner

end Decodes

/-! ## Records -/

/-- The pieces of an object, each under its key and spelling its value. -/
theorem exists_labelled {es : List (String × Value)} {ps : List (List Char × List Char)}
    (h : SpelledEntries es ps) :
    ∃ qs : List Labelled, qs.map (fun q => (q.label, q.text)) = ps
      ∧ depth (qs.map Labelled.toPiece) = nestingEntries es
      ∧ (∀ q ∈ qs, StringText q.key q.label)
      ∧ List.Forall₂ (fun e q => e.1 = q.key ∧ Spells e.2 q.toPiece) es qs := by
  induction es generalizing ps with
  | nil =>
      simp only [SpelledEntries] at h
      exact ⟨[], h.symm, by simp [depth, nestingEntries], by simp, .nil⟩
  | cons e es ih =>
      obtain ⟨k, v⟩ := e
      simp only [SpelledEntries] at h
      obtain ⟨l, p, ps', rfl, hk, hv, hes⟩ := h
      obtain ⟨qs, rfl, hdepth, hlabels, hqs⟩ := ih hes
      refine ⟨⟨⟨p, v.nesting⟩, k, l⟩ :: qs, rfl, ?_, List.forall_mem_cons.mpr ⟨hk, hlabels⟩,
        .cons ⟨rfl, hv, rfl⟩ hqs⟩
      simp only [List.map_cons, depth, nestingEntries, hdepth]

section

variable {es : List (String × Value)} {qs : List Labelled}

theorem keys_labelled (h : List.Forall₂ (fun e q => e.1 = q.key ∧ Spells e.2 q.toPiece) es qs) :
    qs.map Labelled.key = es.map Prod.fst := by
  induction h with
  | nil => rfl
  | cons hq _ ih => rw [List.map_cons, List.map_cons, ih, hq.1]

theorem valuesAt_labelled (key : String)
    (h : List.Forall₂ (fun e q => e.1 = q.key ∧ Spells e.2 q.toPiece) es qs) :
    List.Forall₂ Spells (valuesAt key es) (valuesAt key (qs.map fun q => (q.key, q.toPiece))) := by
  induction h with
  | nil => exact .nil
  | @cons e q es qs hq _ ih =>
      obtain ⟨k, v⟩ := e
      obtain ⟨rfl, hspells⟩ := hq
      by_cases hk : q.key = key
      · rw [← hk, List.map_cons, valuesAt_self, valuesAt_self]
        exact .cons hspells (hk ▸ ih)
      · rw [List.map_cons, valuesAt_of_ne hk, valuesAt_of_ne hk]
        exact ih

end

theorem valuesAt_of_nodup {σ : Type} {k : String} {v : σ} : {es : List (String × σ)} →
    (es.map Prod.fst).Nodup → (k, v) ∈ es → valuesAt k es = [v]
  | (l, w) :: es, hkeys, hmem => by
      rw [List.map_cons, List.nodup_cons] at hkeys
      rcases List.mem_cons.mp hmem with heq | hmem
      · obtain ⟨rfl, rfl⟩ := Prod.mk.inj heq
        have hnone : valuesAt k es = [] :=
          List.eq_nil_iff_forall_not_mem.mpr fun u hu =>
            hkeys.1 (List.mem_map.mpr ⟨_, mem_valuesAt.mp hu, rfl⟩)
        rw [valuesAt_self, hnone]
      · have hne : l ≠ k := by
          rintro rfl
          exact hkeys.1 (List.mem_map.mpr ⟨_, hmem, rfl⟩)
        rw [valuesAt_of_ne hne, valuesAt_of_nodup hkeys.2 hmem]

/-- A field that is written as a tree and never left out. -/
def Slot.ofTree (e : String × Value) : Slot where
  key := e.1
  Holds := Spells e.2
  omissible := False

/-- An object describes the record of its own entries. -/
theorem RecordText.of_object {es : List (String × Value)} (hkeys : (es.map Prod.fst).Nodup)
    {p : Piece} (h : Spells (.object es) p) : RecordText (es.map Slot.ofTree) p := by
  obtain ⟨t, n⟩ := p
  obtain ⟨ht, rfl⟩ := h
  simp only [Value.Spelled] at ht
  obtain ⟨ps, inner, rfl, hinner, hps⟩ := ht
  obtain ⟨qs, rfl, hdepth, hlabels, hqs⟩ := exists_labelled hps
  rw [Value.nesting, ← hdepth]
  refine .object hinner hlabels (fun q hq hother => ?_) fun slot hslot => ?_
  · have hmem : q.key ∈ es.map Prod.fst := by
      rw [← keys_labelled hqs]
      exact List.mem_map_of_mem hq
    have hslots : (es.map Slot.ofTree).map Slot.key = es.map Prod.fst := by
      rw [List.map_map]
      rfl
    exact absurd (hslots ▸ hmem) hother
  · obtain ⟨⟨k, v⟩, he, rfl⟩ := List.mem_map.mp hslot
    have hvalues := valuesAt_labelled k hqs
    rw [valuesAt_of_nodup hkeys he] at hvalues
    obtain ⟨q, _, hq, hnil, heq⟩ := List.forall₂_cons_left_iff.mp hvalues
    rw [List.forall₂_nil_left_iff.mp hnil] at heq
    exact Or.inl ⟨q, heq, hq⟩

/-- A field fits the tree of its value, if it reads the value off that tree. -/
theorem Field.fits_tree {f : Field Decoder} {v : Value} {x : f.Ty}
    (h : ∀ p, Spells v p → Reads f.read p x) : f.Fits (.ofTree (f.key, v)) x where
  key := rfl
  read := h
  absent := False.elim
  cut := False.elim

end Adorn.Wire
