import Adorn.Proofs.Json.Skipping
import Adorn.Proofs.Wire.Streams
import Mathlib.Data.List.Forall2

/-!
# Texts of records

The texts that describe a record, said without its decoder. An object
holds each field under its key once, or not at all if the field may be
left out; its entries come in any order, and entries under other keys
may be anything well-formed. A list holds the fields in their order and
may stop where every further field may be left out.

What stands under other keys is passed over without counting how deep it
nests, so the nesting of such a text is the nesting of its fields.
`Decoder.record_reads` says that a record is read off all these texts.
-/

namespace Adorn.Wire

open Json

/-! ## The texts -/

/-- A field as a text may give it: the pieces that stand for its value, and whether it may be left
out. -/
structure Slot where
  key : String
  Holds : Piece → Prop
  omissible : Prop

/-- A field with a default, which may be written as null or left out. -/
def Slot.defaulted (key : String) (isDefault : Prop) (Holds : Piece → Prop) : Slot where
  key := key
  Holds := fun p => Holds p ∨ isDefault ∧ p = .null
  omissible := isDefault

/-- The entries hold the field once, or not at all if it may be left out. -/
def Slot.Filled (slot : Slot) (es : List (String × Piece)) : Prop :=
  (∃ p, valuesAt slot.key es = [p] ∧ slot.Holds p) ∨ (valuesAt slot.key es = [] ∧ slot.omissible)

/-- The items hold the fields in their order, up to a point behind which all may be left out. -/
inductive SlotsListed : List Slot → List Piece → Prop where
  | cut {slots : List Slot} (h : ∀ slot ∈ slots, slot.omissible) : SlotsListed slots []
  | cons {slot : Slot} {slots : List Slot} {p : Piece} {ps : List Piece} (hp : slot.Holds p)
      (hps : SlotsListed slots ps) : SlotsListed (slot :: slots) (p :: ps)

/-- The piece describes a record with these fields. -/
inductive RecordText (slots : List Slot) : Piece → Prop where
  | object {qs : List Labelled} {s : List Char}
      (hs : EntriesText true (qs.map fun q => (q.label, q.text)) s)
      (hlabels : ∀ q ∈ qs, StringText q.key q.label)
      (hothers : ∀ q ∈ qs, q.key ∉ slots.map Slot.key → WellFormed q.text ∧ q.nesting = 0)
      (hslots : ∀ slot ∈ slots, slot.Filled (qs.map fun q => (q.key, q.toPiece))) :
      RecordText slots ⟨'\x7b' :: s, depth (qs.map Labelled.toPiece) + 1⟩
  | list {ps : List Piece} {s : List Char} (hs : ItemsText true (ps.map Piece.text) s)
      (hps : SlotsListed slots ps) : RecordText slots ⟨'[' :: s, depth ps + 1⟩

/-- The text is a document of a record with these fields, which nest at most 127 arrays and objects;
blanks may stand around it. -/
def DocumentText (slots : List Slot) (text : String) : Prop :=
  ∃ b p b', Blanks b ∧ Blanks b' ∧ RecordText slots p ∧ p.nesting ≤ 127
    ∧ text.toList = b ++ (p.text ++ b')

/-- The piece lists the values one after another. -/
inductive ListText {α : Type} (Holds : α → Piece → Prop) (xs : List α) : Piece → Prop where
  | mk {ps : List Piece} {s : List Char} (hs : ItemsText true (ps.map Piece.text) s)
      (hps : List.Forall₂ Holds xs ps) : ListText Holds xs ⟨'[' :: s, depth ps + 1⟩

/-! ## How deep they nest -/

theorem depth_le {n : Nat} {ps : List Piece} (h : ∀ p ∈ ps, p.nesting ≤ n) : depth ps ≤ n := by
  induction ps with
  | nil => exact Nat.zero_le n
  | cons p ps ih =>
      obtain ⟨hp, hps⟩ := List.forall_mem_cons.mp h
      exact Nat.max_le.mpr ⟨hp, ih hps⟩

/-- What stands in the place of a field nests no deeper than the field allows. -/
theorem SlotsListed.nesting_le {n : Nat} {slots : List Slot} {ps : List Piece}
    (h : SlotsListed slots ps) (hslots : ∀ slot ∈ slots, ∀ p, slot.Holds p → p.nesting ≤ n) :
    ∀ p ∈ ps, p.nesting ≤ n := by
  induction h with
  | cut _ => exact fun _ hp => absurd hp List.not_mem_nil
  | cons hp _ ih =>
      obtain ⟨hslot, hslots'⟩ := List.forall_mem_cons.mp hslots
      exact List.forall_mem_cons.mpr ⟨hslot _ hp, ih hslots'⟩

/-- A record nests one level deeper than its fields; what stands under other keys does not count. -/
theorem RecordText.nesting_le {n : Nat} {slots : List Slot} {p : Piece} (h : RecordText slots p)
    (hslots : ∀ slot ∈ slots, ∀ p, slot.Holds p → p.nesting ≤ n) : p.nesting ≤ n + 1 := by
  cases h with
  | @object qs s hs hlabels hothers hfilled =>
      refine Nat.succ_le_succ (depth_le fun p hp => ?_)
      obtain ⟨q, hq, rfl⟩ := List.mem_map.mp hp
      by_cases hkey : q.key ∈ slots.map Slot.key
      · obtain ⟨slot, hslot, heq⟩ := List.mem_map.mp hkey
        have hvalue : q.toPiece ∈ valuesAt slot.key (qs.map fun q => (q.key, q.toPiece)) := by
          rw [heq, mem_valuesAt]
          exact List.mem_map.mpr ⟨q, hq, rfl⟩
        rcases hfilled slot hslot with ⟨p, hvalues, hholds⟩ | ⟨hnone, -⟩
        · rw [hvalues, List.mem_singleton] at hvalue
          rw [hvalue]
          exact hslots slot hslot p hholds
        · rw [hnone] at hvalue
          exact absurd hvalue List.not_mem_nil
      · rw [(hothers q hq hkey).2]
        exact Nat.zero_le n
  | list hs hps => exact Nat.succ_le_succ (depth_le (hps.nesting_le hslots))

/-! ## Fields that read them -/

/-- What a field of a decoder makes of the piece under its key. -/
def readsOff (f : Field Decoder) (p : Piece) (x : f.Ty) : Prop :=
  Reads f.read p x

/-- The field reads `x` off whatever the slot holds, and takes `x` for what may be left out. -/
structure Field.Fits (f : Field Decoder) (slot : Slot) (x : f.Ty) : Prop where
  key : f.key = slot.key
  read : ∀ p, slot.Holds p → Reads f.read p x
  absent : slot.omissible → f.absent = some x
  cut : slot.omissible → f.cut = some x

def Fits : (fs : List (Field Decoder)) → Tuple fs → List Slot → Prop
  | [], _, slots => slots = []
  | _ :: _, _, [] => False
  | f :: fs, (x, t), slot :: slots => f.Fits slot x ∧ Fits fs t slots

theorem Fits.keys : {fs : List (Field Decoder)} → {t : Tuple fs} → {slots : List Slot} →
    Fits fs t slots → fs.map Field.key = slots.map Slot.key
  | [], _, slots, h => by
      cases h
      rfl
  | f :: fs, (x, t), slot :: slots, h => by
      rw [List.map_cons, List.map_cons, h.1.key, Fits.keys h.2]

/-- A record of which nothing has been read awaits the entries that hold it. -/
theorem Fits.awaits {es : List (String × Piece)} : {fs : List (Field Decoder)} →
    {t : Tuple fs} → {slots : List Slot} → Fits fs t slots →
      (∀ slot ∈ slots, slot.Filled es) → Draft.Awaits readsOff fs (Draft.empty fs) t es
  | [], _, _, _, _ => trivial
  | f :: fs, (x, t), slot :: slots, h, hfilled => by
      obtain ⟨hslot, hslots⟩ := List.forall_mem_cons.mp hfilled
      refine ⟨?_, Fits.awaits h.2 hslots⟩
      rcases hslot with ⟨p, hp, hholds⟩ | ⟨hnone, homit⟩
      · exact Or.inl ⟨p, by rw [h.1.key]; exact hp, h.1.read p hholds⟩
      · exact Or.inr ⟨by rw [h.1.key]; exact hnone, h.1.absent homit⟩

namespace Decoder

/-! ## Objects -/

section

variable {fs : List (Field Decoder)} (levels : Nat)

theorem fieldStep_close {b : List Char} (hb : Blanks b) {first : Bool} {d : Draft fs}
    {t : Tuple fs} (hd : Draft.finish fs d = .ok t) (rest : List Char) :
    fieldStep fs levels (first, d) (b ++ '\x7d' :: rest) = .ok (.inr t, rest) := by
  rw [fieldStep, Reader.bind_ok (moreEntries_close hb first rest), if_neg Bool.false_ne_true, hd]
  rfl

/-- A round that meets a key of no field passes over its value. -/
theorem fieldStep_other {q : Labelled} (hl : StringText q.key q.label) (hq : WellFormed q.text)
    {first : Bool} {d : Draft fs} {s c e rest : List Char} (hc : Blanks c) (he : Blanks e)
    (hrest : Delimited rest)
    (hmore : moreEntries first s = .ok (true, q.label ++ (c ++ ':' :: (e ++ (q.text ++ rest)))))
    (hplace : Draft.place fs q.key d = .unknown) :
    fieldStep fs levels (first, d) s = .ok (.inl (false, d), rest) := by
  rw [fieldStep, Reader.bind_ok hmore, if_pos rfl, Reader.bind_ok (key_append hl _)]
  simp only [hplace]
  rw [Reader.bind_ok (colon_append hc _), Reader.bind_ok (skip_wellFormed he hq hrest)]
  rfl

/-- A round that meets the key of a field that is free. -/
theorem fieldStep_field {q : Labelled} (hl : StringText q.key q.label) {f : Field Decoder}
    {x : f.Ty} (hq : Reads f.read q.toPiece x) {first : Bool} {d : Draft fs}
    {store : f.Ty → Draft fs} {s c e rest : List Char} (hc : Blanks c) (he : Blanks e)
    (hrest : Delimited rest)
    (hmore : moreEntries first s = .ok (true, q.label ++ (c ++ ':' :: (e ++ (q.text ++ rest)))))
    (hplace : Draft.place fs q.key d = .free f store) :
    fieldStep fs levels (first, d) s
      = if q.nesting ≤ levels then .ok (.inl (false, store x), rest)
        else .error .nestedTooDeep := by
  rw [fieldStep, Reader.bind_ok hmore, if_pos rfl, Reader.bind_ok (key_append hl _)]
  simp only [hplace]
  rw [Reader.bind_ok (colon_append hc _)]
  exact Reader.bind_ite (hq.run levels he hrest)

/-- The loop over the entries of a record fills its draft, whatever their order. -/
theorem fields_ends (hkeys : (fs.map Field.key).Nodup) {t : Tuple fs} : {qs : List Labelled} →
    {first : Bool} → {s : List Char} → {d : Draft fs} →
      EntriesText first (qs.map fun q => (q.label, q.text)) s →
      (∀ q ∈ qs, StringText q.key q.label) →
      (∀ q ∈ qs, q.key ∉ fs.map Field.key → WellFormed q.text ∧ q.nesting = 0) →
      Draft.Awaits readsOff fs d t (qs.map fun q => (q.key, q.toPiece)) → (rest : List Char) →
        Reader.Ends (fieldStep fs levels) (first, d) (s ++ rest)
          (if depth (qs.map Labelled.toPiece) ≤ levels then .ok (t, rest)
            else .error .nestedTooDeep)
  | [], first, s, d, hs, _, _, hawaits, rest => by
      cases hs with
      | close hb =>
          have hd := (Draft.awaits_nil fs d t).mp hawaits
          simp only [List.map_nil, depth, Nat.zero_le, if_true, List.append_assoc,
            List.singleton_append]
          exact .done (fieldStep_close levels hb hd rest)
  | q :: qs, first, s, d, hs, hlabels, hothers, hawaits, rest => by
      obtain ⟨hl, hlabels'⟩ := List.forall_mem_cons.mp hlabels
      obtain ⟨hq, hothers'⟩ := List.forall_mem_cons.mp hothers
      obtain ⟨c, e, u, hc, he, hu, hmore, hlt⟩ := hs.next_entry hl.quote rest
      have hrest := hu.delimited rest
      have hshort : (u ++ rest).length < (s ++ rest).length := by
        simp only [List.length_append]
        omega
      have hnext := (Draft.awaits_cons hkeys d t).mp hawaits
      cases hplace : Draft.place fs q.key d with
      | unknown =>
          rw [hplace] at hnext
          obtain ⟨hwell, hzero⟩ := hq (Draft.not_mem_of_place_unknown hplace)
          simp only [List.map_cons, depth, hzero, Nat.zero_max]
          exact .next (fieldStep_other levels hl hwell hc he hrest hmore hplace) hshort
            (fields_ends hkeys hu hlabels' hothers' hnext rest)
      | taken =>
          rw [hplace] at hnext
          exact hnext.elim
      | free f store =>
          rw [hplace] at hnext
          obtain ⟨x, hx, hnext⟩ := hnext
          have hstep := fieldStep_field levels hl hx hc he hrest hmore hplace
          simp only [List.map_cons, depth, Nat.max_le]
          exact .next_ite hstep hshort (fields_ends hkeys hu hlabels' hothers' hnext rest)

end

/-! ## Lists -/

theorem closeList_append {b : List Char} (hb : Blanks b) (rest : List Char) :
    closeList (b ++ ']' :: rest) = .ok ((), rest) := by
  have hpeek : peek (b ++ ']' :: rest) = .ok (some ']', ']' :: rest) := peek_blanks hb _
  rw [closeList, Reader.bind_ok hpeek]
  rfl

section

variable {f : Field Decoder} {fs : List (Field Decoder)} {x : f.Ty} {t : Tuple fs}
variable (title : Title) (total levels : Nat)

/-- A list that has ended leaves the field to its default. -/
theorem positional_cut {index : Nat} {b s rest : List Char} (hb : Blanks b)
    (hcut : f.cut = some x)
    (hfs : positional title total fs (index + 1) levels (']' :: rest) = .ok (t, s)) :
    positional title total (f :: fs) index levels (b ++ ']' :: rest) = .ok ((x, t), s) := by
  have hmore : (liftM (moreItems (index == 0)) : Decoder Bool) levels (b ++ ']' :: rest)
      = .ok (false, ']' :: rest) := moreItems_close hb _ rest
  rw [positional, bind_ok hmore, if_neg Bool.false_ne_true]
  simp only [hcut]
  rw [bind_ok hfs]
  rfl

theorem positional_item {index n : Nat} {p : Piece} {s u b : List Char}
    (hp : Reads f.read p x) (hmore : moreItems (index == 0) s = .ok (true, p.text ++ u))
    (hu : Delimited u)
    (hfs : positional title total fs (index + 1) levels u
      = if n ≤ levels then .ok (t, b) else .error .nestedTooDeep) :
    positional title total (f :: fs) index levels s
      = if max p.nesting n ≤ levels then .ok ((x, t), b) else .error .nestedTooDeep := by
  have hmore' : (liftM (moreItems (index == 0)) : Decoder Bool) levels s
      = .ok (true, p.text ++ u) := hmore
  have hrun : f.read levels (p.text ++ u) = _ := hp.run levels .nil hu
  rw [positional, bind_ok hmore', if_pos rfl]
  simp only [Nat.max_le]
  by_cases hfits : p.nesting ≤ levels
  · rw [if_pos hfits] at hrun
    rw [bind_ok hrun]
    by_cases hfits' : n ≤ levels
    · rw [if_pos hfits'] at hfs
      rw [if_pos ⟨hfits, hfits'⟩, bind_ok hfs]
      rfl
    · rw [if_neg hfits'] at hfs
      rw [if_neg fun h => hfits' h.2, bind_error hfs]
  · rw [if_neg hfits] at hrun
    rw [if_neg fun h => hfits h.1, bind_error hrun]

end

/-- The fields of a list are read one after another, and what has been cut off is filled in. The
bracket at the end is left, with the blanks before it. -/
theorem positional_run (title : Title) (total levels : Nat) (rest : List Char) :
    {fs : List (Field Decoder)} → {t : Tuple fs} → {slots : List Slot} → {ps : List Piece} →
      {index : Nat} → {first : Bool} → {s : List Char} → (index == 0) = first →
      Fits fs t slots → SlotsListed slots ps → ItemsText first (ps.map Piece.text) s →
        ∃ b, Blanks b ∧ positional title total fs index levels (s ++ rest)
          = if depth ps ≤ levels then .ok (t, b ++ ']' :: rest) else .error .nestedTooDeep
  | [], _, slots, ps, index, first, s, _, hfits, hps, hs => by
      obtain rfl : slots = [] := hfits
      cases hps with
      | cut _ =>
          cases hs with
          | @close _ b hb =>
              refine ⟨b, hb, ?_⟩
              simp only [depth, Nat.zero_le, if_true, List.append_assoc, List.singleton_append]
              rfl
  | f :: fs, (x, t), slot :: slots, [], index, first, s, _, hfits, hps, hs => by
      cases hps with
      | cut homit =>
          cases hs with
          | @close _ b hb =>
              obtain ⟨hslot, hslots⟩ := List.forall_mem_cons.mp homit
              have hlater : (index + 1 == 0) = false := rfl
              obtain ⟨b', hb', hfs⟩ := positional_run title total levels rest hlater hfits.2
                (.cut hslots) (.close .nil)
              simp only [depth, Nat.zero_le, if_true] at hfs ⊢
              rw [List.append_assoc, List.singleton_append]
              exact ⟨b', hb', positional_cut title total levels hb (hfits.1.cut hslot) hfs⟩
  | f :: fs, (x, t), slot :: slots, p :: ps, index, first, s, hfirst, hfits, hps, hs => by
      cases hps with
      | cons hp hps' =>
          have hread := hfits.1.read p hp
          obtain ⟨u, hu, hmore, -⟩ := hs.next_item hread.begins rest
          have hlater : (index + 1 == 0) = false := rfl
          obtain ⟨b, hb, hfs⟩ := positional_run title total levels rest hlater hfits.2 hps' hu
          rw [← hfirst] at hmore
          exact ⟨b, hb, positional_item title total levels hread hmore (hu.delimited rest) hfs⟩

/-! ## Records -/

/-- A record is read off every text that describes it. -/
theorem record_reads {fs : List (Field Decoder)} (hkeys : (fs.map Field.key).Nodup)
    {t : Tuple fs} {slots : List Slot} (hfits : Fits fs t slots) (name : String) {p : Piece}
    (hp : RecordText slots p) : Reads (record name fs) p t := by
  cases hp with
  | @object qs s hs hlabels hothers hslots =>
      rw [← hfits.keys] at hothers
      refine ⟨⟨_, _, rfl, by decide, by decide⟩, fun levels b rest hb hrest => ?_⟩
      rw [record, List.cons_append, form_bind hb (form_map _)]
      refine inside_run (fun levels => ?_) levels
      exact Reader.loop_eq_of_ends
        (fields_ends levels hkeys hs hlabels hothers (hfits.awaits hslots) rest)
  | @list ps s hs hps =>
      refine ⟨⟨_, _, rfl, by decide, by decide⟩, fun levels b rest hb hrest => ?_⟩
      rw [record, List.cons_append, form_bind hb (form_sequence _)]
      refine inside_run (fun levels => ?_) levels
      have hstart : (0 == 0) = true := rfl
      obtain ⟨b', hb', hrun⟩ := positional_run (.record name) fs.length levels rest hstart hfits
        hps hs
      have hclose : (liftM closeList : Decoder Unit) levels (b' ++ ']' :: rest)
          = .ok ((), rest) := closeList_append hb' rest
      rw [bind_ite hrun, bind_ok hclose]
      rfl

end Decoder

/-! ## Lists and defaults -/

theorem ListText.reads {α : Type} {Holds : α → Piece → Prop} {d : Decoder α}
    (h : ∀ x p, Holds x p → Reads d p x) {xs : List α} {p : Piece} (hp : ListText Holds xs p) :
    Reads (Decoder.list d) p xs := by
  have hpairs : ∀ {xs : List α} {ps : List Piece}, List.Forall₂ Holds xs ps →
      ∃ qs : List (Piece × α), qs.map Prod.fst = ps ∧ qs.map Prod.snd = xs
        ∧ ∀ q ∈ qs, Reads d q.1 q.2 := by
    intro xs ps hps
    induction hps with
    | nil => exact ⟨[], rfl, rfl, fun _ hq => nomatch hq⟩
    | @cons x p xs ps hx _ ih =>
        obtain ⟨qs, rfl, rfl, hqs⟩ := ih
        exact ⟨(p, x) :: qs, rfl, rfl, List.forall_mem_cons.mpr ⟨h x p hx, hqs⟩⟩
  obtain ⟨hs, hps⟩ := hp
  obtain ⟨qs, rfl, rfl, hqs⟩ := hpairs hps
  rw [List.map_map] at hs
  exact Decoder.list_reads hqs hs

/-- A field that takes null for its default reads everything a defaulted slot holds. -/
theorem Field.fits_defaulted {α : Type} {key : String} {d : Decoder α} {x default : α}
    {isDefault : Prop} {Holds : Piece → Prop} (hread : ∀ p, Holds p → Reads d p x)
    (hhead : ∀ p, Holds p → p.text.head? ≠ some 'n') (hdefault : isDefault → x = default) :
    (Field.optional key (Decoder.orDefault d default) default).Fits
      (.defaulted key isDefault Holds) x where
  key := rfl
  read p hp := by
    rcases hp with hp | ⟨his, rfl⟩
    · exact Decoder.orDefault_reads (hread p hp) (hhead p hp) default
    · rw [hdefault his]
      exact Decoder.orDefault_null d default
  absent his := by rw [hdefault his]
  cut his := by rw [hdefault his]

end Adorn.Wire
