import Adorn.Proofs.Json.Containers
import Adorn.Proofs.Wire.Streams

/-!
# What decoders settle

A decoder looks at a text through the same few readers, whatever the
type it decodes, so it settles what these settle. Only strings, flags
and nulls are decoded without a bracket; lists, records and tagged
values are closed (`Decoder.list_completes`, `Decoder.record_completes`,
`Tagged.decode_completes`). No default takes the place of a value that
was cut off: a field is left out where a closing bracket stands, and
not where the text ends.
-/

namespace Adorn.Wire

open Json

namespace Decoder

variable {α β : Type} {s : List Char} {levels : Nat}

/-! ## Sequences -/

section

variable {i : Point} {h : α → Hold} {f : β → Hold} {d : Decoder α}

theorem bind_settles {k : α → Decoder β} {g : α → β → Hold} (hd : Settles i h (d levels) s)
    (hk : ∀ x t, Settles (h x).toPoint (g x) (k x levels) t)
    (hjoin : ∀ x z, ((h x).followedBy (g x z)).covers (f z) = true) :
    Settles i f ((d >>= k) levels) s :=
  Settles.bind hd hk hjoin

theorem map_settles {m : α → β} (hd : Settles i h (d levels) s)
    (hm : ∀ x, (h x).covers (f (m x)) = true) :
    Settles i f ((d >>= fun x => pure (m x)) levels) s :=
  Settles.map hd hm

theorem form_settles {k : Form → Decoder β} {g : β → Hold}
    (hscalar : ∀ x t, Settles .start g (k (.scalar x) levels) t)
    (hsequence : ∀ t, Settles (.facing '[') f (k .sequence levels) t)
    (hmap : ∀ t, Settles (.facing '\x7b') f (k .map levels) t)
    (hjoin : ∀ z, (Hold.loose.followedBy (g z)).covers (f z) = true)
    (hfirm : ∀ z, (f z).decided = true) :
    Settles .start f (((liftM form : Decoder Form) >>= k) levels) s :=
  Settles.form (k := fun y => k y levels) hscalar hsequence hmap hjoin hfirm

theorem peek_settles {k : Option Char → Decoder β} {e : Error}
    (hnone : k none levels [] = .error e) (he : e.category = .eof)
    (hsome : ∀ c t, isSpace c = false → Settles (.facing c) f (k (some c) levels) (c :: t))
    (hfirm : ∀ z, (f z).decided = true) :
    Settles .start f (((liftM peek : Decoder (Option Char)) >>= k) levels) s :=
  Settles.peek (k := fun c => k c levels) hnone he hsome hfirm

/-- What stands inside an array or object is read behind its bracket. -/
theorem inside_settles {c : Char} (hc : isSpace c = false ∧ c ≠ '"')
    (hd : ∀ levels t, Settles .start (fun _ => .closed) (d levels) t) :
    Settles (.facing c) (fun _ => .closed) (inside d levels) s := by
  cases levels with
  | zero => exact .throw _
  | succ levels => exact .behind hc (hd levels) fun _ => rfl

end

/-! ## Simple values -/

/-- A decoder settles what it reads, and where there is nothing to read the text ends too early. -/
structure Completes (d : Decoder α) (h : Hold) : Prop where
  settles : ∀ levels s, Settles .start (fun _ => h) (d levels) s
  short : ∀ levels, ∃ e, d levels [] = .error e ∧ e.category = .eof

namespace Completes

/-- What is made of a value, without reading on, is settled with it. -/
theorem bind {d : Decoder α} {k : α → Decoder β} (hd : d.Completes .closed)
    (hk : ∀ x levels s, Settles .start (fun _ => .still .start) (k x levels) s) :
    (d >>= k).Completes .closed where
  settles levels s := bind_settles (hd.settles levels s) (fun x t => hk x levels t) fun _ _ => rfl
  short levels := by
    obtain ⟨e, he, hcat⟩ := hd.short levels
    exact ⟨e, bind_error he, hcat⟩

theorem loosen {d : Decoder α} (hd : d.Completes .closed) : d.Completes .loose where
  settles levels s := (hd.settles levels s).weaken fun _ => rfl
  short := hd.short

end Completes

theorem text_completes : text.Completes .loose where
  settles levels s := by
    refine form_settles (g := fun _ => .pending) (fun x t => ?_) (fun _ => .throw _)
      (fun _ => .throw _) (fun _ => rfl) fun _ => rfl
    cases x with
    | string => exact .pure rfl
    | null | boolean | number => exact .throw _
  short _ := ⟨_, rfl, rfl⟩

theorem flag_completes : flag.Completes .loose where
  settles levels s := by
    refine form_settles (g := fun _ => .pending) (fun x t => ?_) (fun _ => .throw _)
      (fun _ => .throw _) (fun _ => rfl) fun _ => rfl
    cases x with
    | boolean => exact .pure rfl
    | null | string | number => exact .throw _
  short _ := ⟨_, rfl, rfl⟩

theorem nullable_completes {d : Decoder α} (hd : d.Completes .loose) :
    (nullable d).Completes .loose where
  settles levels s := by
    obtain ⟨e, he, hcat⟩ := hd.short levels
    refine peek_settles ?_ hcat (fun c t hc => ?_) fun _ => rfl
    · rw [if_neg nofun]
      exact bind_error he
    · by_cases hn : c = 'n'
      · subst hn
        rw [if_pos rfl]
        exact Settles.weaken (keyword_settles (by simp [isSpace]) none) fun _ => rfl
      · rw [if_neg fun hsome => hn (Option.some.inj hsome)]
        exact map_settles ((hd.settles levels _).seen c) fun _ => rfl
  short levels := by
    obtain ⟨e, he, hcat⟩ := hd.short levels
    have hpeek : (liftM peek : Decoder (Option Char)) levels [] = .ok (none, []) := rfl
    refine ⟨e, ?_, hcat⟩
    rw [nullable, bind_ok hpeek, if_neg nofun, bind_error he]

theorem orDefault_completes {d : Decoder α} (hd : d.Completes .loose) (default : α) :
    (orDefault d default).Completes .loose where
  settles levels s := map_settles ((nullable_completes hd).settles levels s) fun _ => rfl
  short levels := by
    obtain ⟨e, he, hcat⟩ := (nullable_completes hd).short levels
    exact ⟨e, by rw [orDefault, bind_error he], hcat⟩

theorem list_completes {d : Decoder α} (hd : d.Completes .loose) : (list d).Completes .closed where
  settles levels s := by
    refine form_settles (g := fun _ => .closed) (fun _ _ => .throw _) (fun _ => ?_)
      (fun _ => .throw _) (fun _ => rfl) fun _ => rfl
    exact inside_settles (by decide) fun levels _ => items_settles (hd.settles levels) true
  short _ := ⟨_, rfl, rfl⟩

end Decoder

/-! ## Records -/

/-- A key only ever leads to one of the fields. -/
theorem Draft.mem_of_place {m : Type → Type} {k : String} {g : Field m} :
    {fs : List (Field m)} → {d : Draft fs} → {store : g.Ty → Draft fs} →
      Draft.place fs k d = .free g store → g ∈ fs
  | [], _, _, h => nomatch h
  | f :: fs, (x, d), store, h => by
      rw [Draft.place] at h
      by_cases hk : k = f.key
      · rw [if_pos hk] at h
        split at h
        · cases h
        · cases h
          exact List.mem_cons_self ..
      · rw [if_neg hk] at h
        split at h
        · cases h
        · cases h
        · next hplace =>
            cases h
            exact List.mem_cons_of_mem _ (Draft.mem_of_place hplace)

namespace Decoder

variable {s : List Char}

/-- All fields of a record are decoded from whole values. -/
def FieldsComplete (fs : List (Field Decoder)) : Prop :=
  ∀ f ∈ fs, f.read.Completes .loose

theorem FieldsComplete.nil : FieldsComplete [] :=
  nofun

theorem FieldsComplete.cons {f : Field Decoder} {fs : List (Field Decoder)}
    (hf : f.read.Completes .loose) (hfs : FieldsComplete fs) : FieldsComplete (f :: fs) :=
  List.forall_mem_cons.mpr ⟨hf, hfs⟩

/-- Fields that a list leaves out at its end take nothing; the bracket behind them is still to
come. -/
theorem positional_settles (title : Title) (total levels : Nat) : (fs : List (Field Decoder)) →
    FieldsComplete fs → (index : Nat) → {s : List Char} →
      Settles .start (fun _ => .pending) (positional title total fs index levels) s
  | [], _, _, _ => .pure rfl
  | f :: fs, hfs, index, s => by
      have hread := hfs f (List.mem_cons_self ..)
      have hrest {s : List Char} := positional_settles title total levels fs
        (fun g hg => hfs g (List.mem_cons_of_mem _ hg)) (index + 1) (s := s)
      refine bind_settles (g := fun _ _ => .pending) (moreItems_settles _) (fun more t => ?_)
        fun more _ => by cases more <;> rfl
      cases more with
      | true =>
          refine bind_settles (g := fun _ _ => .pending) (hread.settles levels t) (fun v t => ?_)
            fun _ _ => rfl
          exact map_settles hrest fun _ => rfl
      | false =>
          cases hcut : f.cut with
          | none => exact .throw _
          | some v => exact map_settles (hrest.seen ']') fun _ => rfl

theorem closeList_settles : Settles .start (fun _ => .closed) closeList s := by
  refine .peek rfl rfl (fun c t hc => ?_) fun _ => rfl
  refine .ite (fun h => ?_) fun _ => .ite (fun h => ?_) fun _ => .throw _
  · subst h
    exact .advance rfl
  · subst h
    intro _ x rest hx
    rw [Reader.bind_ok (advance_cons ',' t)] at hx
    obtain ⟨d, u, _, hd⟩ := Reader.bind_eq_ok hx
    split at hd <;> cases hd

theorem fieldStep_settles {fs : List (Field Decoder)} (hfs : FieldsComplete fs) (levels : Nat)
    (state : Bool × Draft fs) : Settles .start partHold (fieldStep fs levels state) s := by
  refine .bind (moreEntries_settles _) (fun more t => ?_) partHold_of_entry
  cases more with
  | true =>
      refine .bind key_settles (fun k t => ?_) fun _ => partHold_of_closed
      split
      · refine .bind (g := fun _ y => { partHold y with takes := false }) colon_settles
          (fun _ t => ?_) fun _ y => by cases y <;> rfl
        exact skip_settles.map fun _ => rfl
      · exact .throw _
      · next f store hplace =>
          have hread := hfs f (Draft.mem_of_place hplace)
          refine .bind colon_settles (fun _ t => ?_) fun _ => partHold_of_closed
          exact (hread.settles levels t).map fun _ => rfl
  | false => exact .lift_bind fun t _ => lastPart_settles (by decide) t

theorem record_completes (name : String) {fs : List (Field Decoder)} (hfs : FieldsComplete fs) :
    (record name fs).Completes .closed where
  settles levels s := by
    refine form_settles (g := fun _ => .closed) (fun _ _ => .throw _) (fun _ => ?_) (fun _ => ?_)
      (fun _ => rfl) fun _ => rfl
    · refine inside_settles (by decide) fun levels _ => ?_
      refine bind_settles (g := fun _ _ => .closed) (positional_settles _ _ levels fs hfs 0)
        (fun t _ => ?_) fun _ _ => rfl
      exact map_settles closeList_settles fun _ => rfl
    · refine inside_settles (by decide) fun levels _ => ?_
      exact .loop (fun state _ => fieldStep_settles hfs levels state) (fun _ => ⟨rfl, rfl⟩)
        (fun _ _ => rfl) _ _
  short _ := ⟨_, rfl, rfl⟩

end Decoder

/-! ## Tagged values -/

namespace Tagged

variable {κ : Type} (t : Tagged κ) {s : List Char}

theorem tag_settles : Settles .start (fun _ => .loose) t.tag s := by
  refine .form (g := fun _ => .pending) (fun x u => ?_) (fun _ => .throw _) (fun _ => .throw _)
    (fun _ => rfl) fun _ => rfl
  cases x with
  | string => exact .lift fun _ => rfl
  | null | boolean | number => exact .throw _

theorem openStep_settles (levels : Nat) (state : Open κ) :
    Settles .start partHold (t.openStep levels state) s := by
  refine .bind (moreEntries_settles _) (fun more u => ?_) partHold_of_entry
  cases more with
  | true =>
      refine .bind key_settles (fun k u => ?_) fun _ => partHold_of_closed
      refine .ite (fun _ => .ite (fun _ => .of_error rfl) fun _ => ?_) fun _ => ?_
      · refine .bind colon_settles (fun _ u => ?_) fun _ => partHold_of_closed
        exact t.tag_settles.map fun _ => rfl
      · refine .bind colon_settles (fun _ u => ?_) fun _ => partHold_of_closed
        exact (value_settles levels).map fun _ => rfl
  | false =>
      rw [if_neg Bool.false_ne_true]
      split
      · exact .throw _
      · exact lastPart_settles (by decide) _

theorem listed_settles (levels : Nat) :
    Settles .start (fun _ => .closed) (t.listed levels) s := by
  refine .bind (g := fun _ _ => .closed) (moreItems_settles _) (fun more u => ?_)
    fun more _ => by cases more <;> rfl
  cases more with
  | true =>
      refine .bind (g := fun _ _ => .closed) t.tag_settles (fun k u => ?_) fun _ _ => rfl
      exact (items_settles (fun _ => value_settles levels) false).map fun _ => rfl
  | false => exact .throw _

theorem decode_completes : t.decode.Completes .closed where
  settles levels s := by
    refine Decoder.form_settles (g := fun _ => .closed) (fun _ _ => .throw _) (fun _ => ?_)
      (fun _ => ?_) (fun _ => rfl) fun _ => rfl
    · exact Decoder.inside_settles (by decide) fun levels _ => t.listed_settles levels
    · refine Decoder.inside_settles (by decide) fun levels _ => ?_
      exact .loop (fun state _ => t.openStep_settles levels state) (fun _ => ⟨rfl, rfl⟩)
        (fun _ _ => rfl) _ _
  short _ := ⟨_, rfl, rfl⟩

end Tagged

/-! ## Documents -/

namespace Decoder

variable {α : Type} {d : Decoder α} {x : α}

theorem run_of_ok {t : String} {rest : List Char} (h : d maxNesting t.toList = .ok (x, rest)) :
    (Blanks rest → d.run t = .ok x) ∧ (¬Blanks rest → d.run t = .error .trailingCharacters) := by
  refine ⟨fun hrest => run_eq_ok.mpr ⟨rest, h, hrest⟩, fun hrest => ?_⟩
  have hall : ¬rest.all isSpace = true := fun hall => hrest (List.all_eq_true.mp hall)
  rw [run, Reader.document, h]
  exact if_neg hall

theorem run_of_error {t : String} {e : Error} (h : d maxNesting t.toList = .error e) :
    d.run t = .error e := by
  rw [run, Reader.document, h]
  rfl

namespace Completes

/-- An accepted text whose end is cut off is accepted for the same value if only blanks are missing,
and refused otherwise. -/
theorem run_cut (hd : d.Completes .closed) {p u : String} (h : d.run (p ++ u) = .ok x) :
    (Blanks u.toList → d.run p = .ok x)
      ∧ (¬Blanks u.toList → ∃ e, d.run p = .error e
        ∧ (e.category = .eof ∨ CutsNumeral .outside p.toList u.toList)) := by
  obtain ⟨b, hrun, hb⟩ := run_eq_ok.mp h
  obtain ⟨used, hused, hu⟩ := hd.settles maxNesting _ nofun x b hrun
  rw [String.toList_append] at hused
  have hwhole : ∀ c, p.toList = used ++ c → b = c ++ u.toList →
      Blanks u.toList ∧ d.run p = .ok x := by
    intro c hp hc
    have hagain := hu.again c (.inl rfl)
    rw [← hp] at hagain
    refine ⟨fun e he => hb e ?_, (run_of_ok hagain).1 fun e he => hb e ?_⟩
    · rw [hc]
      exact List.mem_append_right _ he
    · rw [hc]
      exact List.mem_append_left _ he
  rcases List.append_eq_append_iff.mp hused with ⟨a, ha, hub⟩ | ⟨c, hp, hc⟩
  · cases a with
    | nil =>
        obtain ⟨hblanks, hok⟩ := hwhole [] (by simp [ha]) hub.symm
        exact ⟨fun _ => hok, fun hnot => absurd hblanks hnot⟩
    | cons c a =>
        have hmissing : ¬Blanks (c :: a) := hu.not_blanks rfl rfl ha (List.cons_ne_nil c a)
        have hnot : ¬Blanks u.toList := fun hblanks =>
          hmissing fun e he => hblanks e (hub ▸ List.mem_append_left _ he)
        refine ⟨fun hblanks => absurd hblanks hnot, fun _ => ?_⟩
        cases hu.cut p.toList (c :: a) ha nofun with
        | short he hcat => exact ⟨_, run_of_error he, .inl hcat⟩
        | numeral hcut hloose =>
            cases hp : d maxNesting p.toList with
            | error e => exact ⟨e, run_of_error hp, .inr (by rwa [hub])⟩
            | ok y => cases (hloose y.1 y.2 hp).1
        | whole ha => cases ha
  · obtain ⟨hblanks, hok⟩ := hwhole c hp hc
    exact ⟨fun _ => hok, fun hnot => absurd hblanks hnot⟩

/-- An accepted text is followed by nothing but blanks. -/
theorem run_append (hd : d.Completes .closed) {t : String} (h : d.run t = .ok x) (u : String) :
    (Blanks u.toList → d.run (t ++ u) = .ok x)
      ∧ (¬Blanks u.toList → d.run (t ++ u) = .error .trailingCharacters) := by
  obtain ⟨b, hrun, hb⟩ := run_eq_ok.mp h
  obtain ⟨used, hused, hu⟩ := hd.settles maxNesting _ nofun x b hrun
  have hlong : d maxNesting (t ++ u).toList = .ok (x, b ++ u.toList) := by
    rw [String.toList_append, hused, List.append_assoc]
    exact hu.again _ (.inl rfl)
  have hblanks : Blanks (b ++ u.toList) ↔ Blanks u.toList := by
    simp only [Blanks, List.forall_mem_append]
    exact and_iff_right hb
  have hlast := run_of_ok hlong
  rwa [hblanks] at hlast

end Completes

end Decoder

end Adorn.Wire
