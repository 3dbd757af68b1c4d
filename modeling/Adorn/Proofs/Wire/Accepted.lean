import Adorn.Proofs.Json.Accepted
import Adorn.Proofs.Wire.Records
import Adorn.Proofs.Wire.Settled

/-!
# What accepted records hold

`Wire.Records` says which texts a record is read off. Here is the other
direction: a well-formed object or list that is accepted as a record
holds no field twice, and what stands in the place of a field is
something that its decoder takes (`Decoder.record_object`,
`Decoder.record_list`).

The decoders of the fields have to be exact: of a well-formed value that
they accept they take all. Only then does the loop meet the entries that
the text has.
-/

namespace Adorn.Wire

open Json

namespace Decoder

variable {α β : Type}

/-! ## Exact decoders -/

/-- Of a well-formed value that it accepts the decoder takes all, and nothing behind it. -/
def Exact (d : Decoder α) : Prop :=
  ∀ ⦃levels : Nat⦄ ⦃b p rest r : List Char⦄ ⦃x : α⦄, Blanks b → WellFormed p → Delimited rest →
    d levels (b ++ (p ++ rest)) = .ok (x, r) → r = rest

/-- The decoder does not accept null. -/
def RefusesNull (d : Decoder α) : Prop :=
  ∀ ⦃levels : Nat⦄ ⦃b rest r : List Char⦄ ⦃x : α⦄, Blanks b → Delimited rest →
    d levels (b ++ (Piece.null.text ++ rest)) ≠ .ok (x, r)

theorem inside_eq_ok {d : Decoder α} {levels : Nat} {c : Char} {s r : List Char} {x : α}
    (h : inside d levels (c :: s) = .ok (x, r)) : ∃ n, d n s = .ok (x, r) := by
  cases levels with
  | zero => cases h
  | succ n => exact ⟨n, h⟩

theorem text_exact : text.Exact := by
  intro levels b p rest r x hb hp hrest h
  obtain ⟨f, s, hf, hx⟩ := bind_eq_ok.mp h
  rcases form_wellFormed hb hp hrest hf with ⟨y, rfl, rfl⟩ | ⟨rfl, -, -⟩ | rfl
  · cases y with
    | string s =>
        cases hx
        rfl
    | null | boolean _ | number _ => cases hx
  · cases hx
  · cases hx

theorem text_refusesNull : text.RefusesNull := by
  intro levels b rest r x hb hrest
  rw [text, form_bind hb (form_null hrest)]
  intro h
  cases h

theorem list_exact {d : Decoder α} (hd : d.Exact) : (list d).Exact := by
  intro levels b p rest r xs hb hp hrest h
  obtain ⟨f, s, hf, hx⟩ := bind_eq_ok.mp h
  rcases form_wellFormed hb hp hrest hf with
    ⟨y, rfl, rfl⟩ | ⟨rfl, rfl, ps, inner, rfl, hi, hps⟩ | rfl
  · cases hx
  · obtain ⟨n, hitems⟩ := inside_eq_ok hx
    exact items_wellFormed (fun hp hrest h => hd .nil hp hrest h) hi hps hitems
  · cases hx

theorem list_refusesNull (d : Decoder α) : (list d).RefusesNull := by
  intro levels b rest r x hb hrest
  rw [list, form_bind hb (form_null hrest)]
  intro h
  cases h

/-- What is made of a value without reading on takes no more of the text. -/
theorem Exact.bind {d : Decoder α} (hd : d.Exact) {f : α → Decoder β}
    (hf : ∀ a levels s y r, f a levels s = .ok (y, r) → r = s) : (d >>= f).Exact := by
  intro levels b p rest r x hb hp hrest h
  obtain ⟨a, s, ha, hx⟩ := bind_eq_ok.mp h
  obtain rfl := hd hb hp hrest ha
  exact hf a levels _ x r hx

theorem RefusesNull.bind {d : Decoder α} (hd : d.RefusesNull) (f : α → Decoder β) :
    (d >>= f).RefusesNull := by
  intro levels b rest r x hb hrest h
  obtain ⟨a, s, ha, -⟩ := bind_eq_ok.mp h
  exact hd hb hrest ha

end Decoder

/-! ## Fields -/

/-- The field takes `x` off the text `v`, with something before and behind it. -/
def Field.Takes (f : Field Decoder) (v : List Char) (x : f.Ty) : Prop :=
  ∃ levels b rest r, Blanks b ∧ Delimited rest ∧ f.read levels (b ++ (v ++ rest)) = .ok (x, r)

theorem Field.Takes.ne_null {f : Field Decoder} {v : List Char} {x : f.Ty} (h : f.Takes v x)
    (hf : f.read.RefusesNull) : v ≠ Piece.null.text := by
  rintro rfl
  obtain ⟨levels, b, rest, r, hb, hrest, hread⟩ := h
  exact hf hb hrest hread

/-- The keys that the labels spell, each with the text under it. -/
def KeysSpelled (qs : List (List Char × List Char)) (es : List (String × List Char)) : Prop :=
  List.Forall₂ (fun q e => StringText e.1 q.1 ∧ e.2 = q.2) qs es

/-- Entries whose labels all spell one key are found under it. -/
theorem KeysSpelled.valuesAt {k : String} {qs qs' : List (List Char × List Char)}
    {es : List (String × List Char)} (h : KeysSpelled qs es) (hsub : qs'.Sublist qs)
    (hk : ∀ q ∈ qs', StringText k q.1) : (qs'.map Prod.snd).Sublist (valuesAt k es) := by
  induction hsub generalizing es with
  | slnil => exact List.nil_sublist _
  | @cons qs₁ qs₂ q _ ih =>
      obtain ⟨⟨l, v⟩, es, -, hes, rfl⟩ := List.forall₂_cons_left_iff.mp h
      have hrest := ih hes hk
      by_cases hl : l = k
      · subst hl
        rw [valuesAt_self]
        exact hrest.cons v
      · rw [valuesAt_of_ne hl]
        exact hrest
  | @cons_cons qs₁ qs₂ q _ ih =>
      obtain ⟨⟨l, v⟩, es, ⟨hl, rfl⟩, hes, rfl⟩ := List.forall₂_cons_left_iff.mp h
      obtain ⟨hq, hqs⟩ := List.forall_mem_cons.mp hk
      obtain rfl := hl.unique hq
      rw [List.map_cons, valuesAt_self]
      exact (ih hes hqs).cons_cons _

/-- A field of which nothing has been read comes once at most, and with a value that it takes. -/
theorem Field.Awaits.once {m : Type → Type} {σ : Type} {R : (f : Field m) → σ → f.Ty → Prop}
    {f : Field m} {x : f.Ty} {es : List (String × σ)} (h : f.Awaits R none x es) :
    (valuesAt f.key es).length ≤ 1 ∧ ∀ v ∈ valuesAt f.key es, R f v x := by
  rcases h with ⟨s, hs, hx⟩ | ⟨hnone, -⟩
  · rw [hs]
    exact ⟨Nat.le_refl 1, fun v hv => List.mem_singleton.mp hv ▸ hx⟩
  · rw [hnone]
    exact ⟨Nat.zero_le 1, fun v hv => absurd hv List.not_mem_nil⟩

theorem Draft.Awaits.of_mem {m : Type → Type} {σ : Type} {R : (f : Field m) → σ → f.Ty → Prop}
    {f : Field m} {es : List (String × σ)} : {fs : List (Field m)} → {t : Tuple fs} →
      Draft.Awaits R fs (Draft.empty fs) t es → f ∈ fs → ∃ x, f.Awaits R none x es
  | g :: fs, (x, t), h, hf => by
      rcases List.mem_cons.mp hf with rfl | hf
      · exact ⟨x, h.1⟩
      · exact Draft.Awaits.of_mem h.2 hf

namespace Decoder

/-! ## Objects -/

/-- While a record is read off an object: what is ahead are its other entries, and every tuple that
the draft awaits from them meets the goal. -/
def EntriesAhead (fs : List (Field Decoder)) (Goal : Tuple fs → Prop) (rest : List Char)
    (state : Bool × Draft fs) (s : List Char) : Prop :=
  ∃ qs t, EntriesText state.1 qs t ∧ (∀ q ∈ qs, QuotedText q.1 ∧ WellFormed q.2) ∧ s = t ++ rest
    ∧ ∀ es x, KeysSpelled qs es → Draft.Awaits Field.Takes fs state.2 x es → Goal x

section

variable {fs : List (Field Decoder)} {Goal : Tuple fs → Prop} {levels : Nat}
variable {rest s t : List Char}

theorem EntriesAhead.round (hkeys : (fs.map Field.key).Nodup) (hexact : ∀ f ∈ fs, f.read.Exact)
    {state : Bool × Draft fs} {y : (Bool × Draft fs) ⊕ Tuple fs}
    (hs : EntriesAhead fs Goal rest state s) (h : fieldStep fs levels state s = .ok (y, t)) :
    Sum.elim (EntriesAhead fs Goal rest · t) Goal y := by
  obtain ⟨first, d⟩ := state
  obtain ⟨qs, u, hu, hqs, rfl, hgoal⟩ := hs
  cases qs with
  | nil =>
      cases hu with
      | close hb =>
          rw [List.append_assoc, List.singleton_append] at h
          cases hfinish : Draft.finish fs d with
          | error e =>
              rw [fieldStep, Reader.bind_ok (moreEntries_close hb first rest),
                if_neg Bool.false_ne_true, hfinish] at h
              cases h
          | ok x =>
              rw [fieldStep_close levels hb hfinish] at h
              cases h
              exact hgoal [] x .nil ((Draft.awaits_nil fs d x).mpr hfinish)
  | cons q qs =>
      obtain ⟨l, v⟩ := q
      obtain ⟨⟨hl, hv⟩, hqs'⟩ := List.forall_mem_cons.mp hqs
      obtain ⟨c, e, w, hc, he, hw, hmore, -⟩ := hu.next_entry hl.quote rest
      rw [fieldStep, Reader.bind_ok hmore, if_pos rfl] at h
      obtain ⟨k, u', hread, h⟩ := Reader.bind_eq_ok h
      obtain ⟨hk, rfl⟩ := key_quoted hl hread
      have hentry : ∀ es x, KeysSpelled qs es → Draft.Awaits Field.Takes fs d x ((k, v) :: es) →
          Goal x := fun es x hes => hgoal _ x (.cons ⟨hk, rfl⟩ hes)
      -- A key of no field is passed over, and the key of a field that has been read is refused.
      cases hplace : Draft.place fs k d with
      | unknown =>
          simp only [hplace] at h
          rw [Reader.bind_ok (colon_append hc _),
            Reader.bind_ok (skip_wellFormed he hv (hw.delimited rest))] at h
          cases h
          refine ⟨qs, w, hw, hqs', rfl, fun es x hes hx => hentry es x hes ?_⟩
          rw [Draft.awaits_cons hkeys, hplace]
          exact hx
      | taken =>
          simp only [hplace] at h
          cases h
      | free f store =>
          simp only [hplace] at h
          rw [Reader.bind_ok (colon_append hc _)] at h
          obtain ⟨z, u', hz, hu'⟩ := Reader.bind_eq_ok h
          cases hu'
          have hleft := hexact f (Draft.mem_of_place hplace) he hv (hw.delimited rest) hz
          refine ⟨qs, w, hw, hqs', hleft, fun es x hes hx => hentry es x hes ?_⟩
          rw [Draft.awaits_cons hkeys, hplace]
          exact ⟨z, ⟨levels, e, w ++ rest, _, he, hw.delimited rest, hz⟩, hx⟩

/-- An object that is accepted as a record holds each field once at most, and with a value that the
field takes. -/
theorem record_object (hkeys : (fs.map Field.key).Nodup) (hexact : ∀ f ∈ fs, f.read.Exact)
    {name : String} {qs qs' : List (List Char × List Char)} {b inner r : List Char} {x : Tuple fs}
    (hb : Blanks b) (hi : EntriesText true qs inner)
    (hqs : ∀ q ∈ qs, QuotedText q.1 ∧ WellFormed q.2)
    (h : record name fs levels (b ++ ('\x7b' :: inner ++ rest)) = .ok (x, r)) {f : Field Decoder}
    (hf : f ∈ fs) (hsub : qs'.Sublist qs) (hkey : ∀ q ∈ qs', StringText f.key q.1) :
    qs'.length ≤ 1 ∧ ∀ q ∈ qs', ∃ y, f.Takes q.2 y := by
  rw [record, List.cons_append, form_bind hb (form_map _)] at h
  obtain ⟨n, hloop⟩ := inside_eq_ok h
  have hstart : EntriesAhead fs
      (fun x => ∃ es, KeysSpelled qs es ∧ Draft.Awaits Field.Takes fs (Draft.empty fs) x es) rest
      (true, Draft.empty fs) (inner ++ rest) :=
    ⟨qs, inner, hi, hqs, rfl, fun es x hes hx => ⟨es, hes, hx⟩⟩
  obtain ⟨es, hes, hawaits⟩ := Reader.loop_invariant (P := fun x _ => _)
    (fun _ _ _ _ hs hstep => hs.round hkeys hexact hstep) hstart hloop
  obtain ⟨y, hy⟩ := hawaits.of_mem hf
  obtain ⟨honce, htakes⟩ := hy.once
  have hvalues := hes.valuesAt hsub hkey
  refine ⟨?_, fun q hq => ⟨y, htakes q.2 (hvalues.subset (List.mem_map_of_mem hq))⟩⟩
  calc qs'.length = (qs'.map Prod.snd).length := (List.length_map _).symm
    _ ≤ (valuesAt f.key es).length := hvalues.length_le
    _ ≤ 1 := honce

end

/-! ## Lists -/

theorem positional_takes {title : Title} {total levels : Nat} {rest : List Char} :
    {fs : List (Field Decoder)} → {index : Nat} → {first : Bool} → {ps : List (List Char)} →
      {s r : List Char} → {x : Tuple fs} → (index == 0) = first → (∀ f ∈ fs, f.read.Exact) →
      ItemsText first ps s → (∀ p ∈ ps, WellFormed p) →
      positional title total fs index levels (s ++ rest) = .ok (x, r) →
      ∀ {i : Nat} {f : Field Decoder} {p : List Char}, fs[i]? = some f → ps[i]? = some p →
        ∃ y, f.Takes p y
  | [], _, _, _, _, _, _, _, _, _, _, _, i, f, p, hf, _ => by simp at hf
  | _ :: _, _, _, [], _, _, _, _, _, _, _, _, i, f, p, _, hp => by simp at hp
  | g :: fs, index, first, q :: ps, s, r, x, hfirst, hexact, hs, hps, h, i, f, p, hf, hp => by
      obtain ⟨hq, hps'⟩ := List.forall_mem_cons.mp hps
      obtain ⟨hg, hexact'⟩ := List.forall_mem_cons.mp hexact
      obtain ⟨u, hu, hmore, -⟩ := hs.next_item hq.begins rest
      rw [← hfirst] at hmore
      have hmore' : (liftM (moreItems (index == 0)) : Decoder Bool) levels (s ++ rest)
          = .ok (true, q ++ (u ++ rest)) := hmore
      rw [positional, bind_ok hmore', if_pos rfl] at h
      obtain ⟨y, v, hy, h⟩ := bind_eq_ok.mp h
      obtain ⟨t, w, ht, -⟩ := bind_eq_ok.mp h
      have hleft : v = u ++ rest := hg .nil hq (hu.delimited rest) hy
      cases i with
      | zero =>
          cases hf
          cases hp
          exact ⟨y, levels, [], u ++ rest, v, .nil, hu.delimited rest, hy⟩
      | succ i =>
          rw [hleft] at ht
          have hlater : (index + 1 == 0) = false := rfl
          exact positional_takes hlater hexact' hu hps' ht (by simpa using hf) (by simpa using hp)

/-- What stands in the place of a field in a list that is accepted as a record is something that the
field takes. -/
theorem record_list {fs : List (Field Decoder)} (hexact : ∀ f ∈ fs, f.read.Exact) {name : String}
    {levels : Nat} {ps : List (List Char)} {b inner rest r : List Char} {x : Tuple fs}
    (hb : Blanks b) (hi : ItemsText true ps inner) (hps : ∀ p ∈ ps, WellFormed p)
    (h : record name fs levels (b ++ ('[' :: inner ++ rest)) = .ok (x, r)) {i : Nat}
    {f : Field Decoder} {p : List Char} (hf : fs[i]? = some f) (hp : ps[i]? = some p) :
    ∃ y, f.Takes p y := by
  rw [record, List.cons_append, form_bind hb (form_sequence _)] at h
  obtain ⟨n, hinside⟩ := inside_eq_ok h
  obtain ⟨t, u, hfields, -⟩ := bind_eq_ok.mp hinside
  have hstart : (0 == 0) = true := rfl
  exact positional_takes hstart hexact hi hps hfields hf hp

end Decoder

end Adorn.Wire
