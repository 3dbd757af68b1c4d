import Adorn.Proofs.Json.Scalars

/-!
# What a reader settles

A text that was cut short is compared with the text it was cut from.
Where a reader succeeds on a text, `Settles` says what it does on the
texts that begin alike: it gives the same value wherever the characters
that it took are followed by others, and where they are cut short it
fails because the text ends too early. Numerals are the exception. A
cut inside of one may leave another numeral, or something that is wrong
for other reasons.

A reader may have looked at a character that it leaves in the text, it
may leave the text inside a string, and after a numeral its value still
depends on what follows. All this is kept in a `Hold`, one for each
value that the reader may give. Holds are computed, so what is said of
a sequence of readers follows from what is said of its parts
(`Settles.bind`), and a loop settles what its rounds settle
(`Settles.loop`).
-/

namespace Adorn.Json

/-! ## Cuts -/

/-- Where a point of a text stands with respect to strings. -/
inductive Quoting where
  | outside
  | inside
  /-- Inside a string, behind a backslash. -/
  | escaped
  deriving DecidableEq

namespace Quoting

def after : Quoting → Char → Quoting
  | .outside, c => if c = '"' then .inside else .outside
  | .inside, c => if c = '"' then .outside else if c = '\\' then .escaped else .inside
  | .escaped, _ => .inside

def through (q : Quoting) (t : List Char) : Quoting :=
  t.foldl after q

@[simp] theorem through_nil (q : Quoting) : q.through [] = q := rfl

@[simp] theorem through_cons (q : Quoting) (c : Char) (t : List Char) :
    q.through (c :: t) = (q.after c).through t := rfl

@[simp] theorem through_append (q : Quoting) (s t : List Char) :
    q.through (s ++ t) = (q.through s).through t :=
  List.foldl_append

theorem after_outside {c : Char} (h : c ≠ '"') : outside.after c = .outside :=
  if_neg h

theorem through_outside : (t : List Char) → (∀ c ∈ t, c ≠ '"') → outside.through t = .outside
  | [], _ => rfl
  | c :: t, h => by
      rw [through_cons, after_outside (h c (List.mem_cons_self ..))]
      exact through_outside t fun d hd => h d (List.mem_cons_of_mem _ hd)

theorem through_blanks {b : List Char} (hb : Blanks b) : outside.through b = .outside := by
  refine through_outside b fun c hc hquote => ?_
  have hspace := hb c hc
  rw [hquote] at hspace
  cases hspace

/-- Only a quote leads out of a string. -/
theorem quote_of_leaves {q : Quoting} {c : Char} (hq : q ≠ .outside) (h : q.after c = .outside) :
    c = '"' := by
  cases q with
  | outside => exact absurd rfl hq
  | inside =>
      rw [after] at h
      split at h
      · assumption
      · split at h <;> cases h
  | escaped => cases h

end Quoting

/-- Between `p` and `u` a numeral is cut in two: a part of it ends `p`, the other part begins `u`,
and it stands in no string. In a document a numeral outside of strings is always a number or a part
of one. -/
def CutsNumeral (q : Quoting) (p u : List Char) : Prop :=
  ∃ a n n' b : List Char, ∃ m : Numeral, p = a ++ n ∧ u = n' ++ b ∧ n ≠ [] ∧ n' ≠ []
    ∧ q.through a = .outside ∧ NumeralText m (n ++ n')

theorem CutsNumeral.behind {q : Quoting} {a p u : List Char} (h : CutsNumeral (q.through a) p u) :
    CutsNumeral q (a ++ p) u := by
  obtain ⟨b, n, n', c, m, rfl, rfl, hn, hn', hb, hm⟩ := h
  exact ⟨a ++ b, n, n', c, m, (List.append_assoc ..).symm, rfl, hn, hn',
    by rw [Quoting.through_append, hb], hm⟩

theorem CutsNumeral.ne_nil {q : Quoting} {p u : List Char} (h : CutsNumeral q p u) : p ≠ [] := by
  obtain ⟨a, n, n', b, m, rfl, rfl, hn, _⟩ := h
  exact List.append_ne_nil_of_right_ne_nil a hn

/-! ## Holds -/

/-- A point of a text: where it stands with respect to strings, and the next character if it has
been seen. -/
structure Point where
  quoting : Quoting
  seen : Option Char

/-- Outside of strings, with nothing seen. -/
abbrev Point.start : Point := ⟨.outside, none⟩

/-- Outside of strings, in front of a character that has been seen. -/
abbrev Point.facing (c : Char) : Point := ⟨.outside, some c⟩

/-- Texts that may stand behind a point. -/
def Point.Fits (i : Point) (s : List Char) : Prop :=
  ∀ c, i.seen = some c → s.head? = some c

/-- Where the text ends, no character has been seen. -/
theorem Point.fits_nil {i : Point} : i.Fits [] ↔ i.seen = none := by
  constructor
  · intro h
    cases hc : i.seen with
    | none => rfl
    | some c => cases h c hc
  · intro h c hc
    rw [h] at hc
    cases hc

theorem Point.Fits.forget {i j : Point} {s : List Char} (h : i.Fits s)
    (hj : j.seen = none ∨ j.seen = i.seen) : j.Fits s := by
  intro c hc
  rcases hj with hnone | hsame
  · rw [hnone] at hc
    cases hc
  · exact h c (hsame.symm.trans hc)

/-- What is known where a reader has succeeded: the point it has come to, whether it took a
character, and whether its value no longer depends on what follows. -/
structure Hold extends Point where
  takes : Bool
  firm : Bool

namespace Hold

/-- A value that is complete, whatever follows it. -/
def closed : Hold := ⟨.start, true, true⟩

/-- A value that may end in a numeral. -/
def loose : Hold := ⟨.start, true, false⟩

/-- Nothing but the way to what comes next. -/
def pending : Hold := ⟨.start, false, false⟩

/-- The way to a character that has been seen. -/
def before (c : Char) : Hold := ⟨.facing c, false, false⟩

/-- A part of a string. -/
def quoted : Hold := ⟨⟨.inside, none⟩, true, true⟩

/-- Nothing is taken and nothing depends on what follows. -/
def still (i : Point) : Hold := ⟨i, false, true⟩

/-- What is known behind a sequence of two readers. The first one need not be firm if the second one
takes a character. -/
def followedBy (h g : Hold) : Hold :=
  { g with takes := h.takes || g.takes, firm := g.firm && (h.firm || g.takes) }

/-- Whether `h` says at least as much as `g`. -/
def covers (h g : Hold) : Bool :=
  g.quoting == h.quoting && (g.seen == none || g.seen == h.seen) && (!g.takes || h.takes) &&
    (!g.firm || h.firm)

/-- Whether `h` is firm only if a character was taken. -/
def decided (h : Hold) : Bool :=
  !h.firm || h.takes

theorem covers_iff {h g : Hold} : h.covers g = true ↔ g.quoting = h.quoting
    ∧ (g.seen = none ∨ g.seen = h.seen) ∧ (g.takes = true → h.takes = true)
    ∧ (g.firm = true → h.firm = true) := by
  obtain ⟨i, takes, firm⟩ := g
  cases takes <;> cases firm <;> simp [covers, and_assoc]

theorem covers_self (h : Hold) : h.covers h = true := by
  simp [covers_iff]

theorem followedBy_covers {h g f : Hold} (hf : (h.followedBy g).covers f = true) :
    f.quoting = g.quoting ∧ (f.seen = none ∨ f.seen = g.seen)
      ∧ (f.takes = true → h.takes = true ∨ g.takes = true)
      ∧ (f.firm = true → g.firm = true ∧ (h.firm = true ∨ g.takes = true)) := by
  simpa [followedBy, covers_iff] using hf

end Hold

/-! ## Settled readers -/

variable {α β σ : Type}

/-- What a reader does on the part `p` of the characters that it takes, where `u` is the other part,
`rest` stands behind them and `x` is the value for all of them. -/
inductive Cut (i : Point) (hold : α → Hold) (r : Reader α) (x : α) (p u rest : List Char) :
    Prop where
  | short {e : Error} (h : r p = .error e) (he : e.category = .eof)
  | numeral (hcut : CutsNumeral i.quoting p (u ++ rest))
      (hloose : ∀ y t, r p = .ok (y, t) → (hold y).firm = false ∧ (hold y).seen = none ∧ t = [])
  | whole (hu : u = []) (hseen : (hold x).seen = none) (h : r p = .ok (x, []))

/-- A reader takes `used` off a text, leaves `rest` and gives `x`, and the hold on `x` is right. -/
structure Settled (i : Point) (hold : α → Hold) (r : Reader α) (x : α) (used rest : List Char) :
    Prop where
  quoting : i.quoting.through used = (hold x).quoting
  fits : (hold x).Fits rest
  takes : (hold x).takes = true → used ≠ []
  ends : (hold x).firm = true → (hold x).quoting = .outside → used ≠ [] →
    ∃ w c, used = w ++ [c] ∧ isSpace c = false
  again : ∀ v, (hold x).firm = true ∨ v.head? = rest.head? → r (used ++ v) = .ok (x, v)
  cut : ∀ p u, used = p ++ u → i.Fits p → Cut i hold r x p u rest

/-- What is cut off from a firm value is never just blanks. -/
theorem Settled.not_blanks {i : Point} {hold : α → Hold} {r : Reader α} {x : α}
    {used rest p u : List Char} (hx : Settled i hold r x used rest) (hfirm : (hold x).firm = true)
    (houtside : (hold x).quoting = .outside) (hused : used = p ++ u) (hu : u ≠ []) : ¬Blanks u := by
  intro hblanks
  obtain ⟨w, c, hw, hc⟩ := hx.ends hfirm houtside (by simp [hused, hu])
  obtain ⟨u, d, rfl⟩ := (List.eq_nil_or_concat u).resolve_left hu
  rw [List.concat_eq_append] at hused hblanks
  rw [hw, ← List.append_assoc] at hused
  obtain ⟨_, hd⟩ := List.append_inj' hused rfl
  cases hd
  have hspace := hblanks c (List.mem_append_right _ (List.mem_cons_self ..))
  rw [hc] at hspace
  cases hspace

/-- If a reader succeeds on a text, it settles what it does on texts that begin alike. -/
def Settles (i : Point) (hold : α → Hold) (r : Reader α) (s : List Char) : Prop :=
  i.Fits s → ∀ x rest, r s = .ok (x, rest) → ∃ used, s = used ++ rest ∧ Settled i hold r x used rest

namespace Settles

variable {i : Point} {h g : α → Hold} {r : Reader α} {s : List Char}

/-- Nothing is asked of a reader that does not succeed. -/
theorem of_error {e : Error} (he : r s = .error e) : Settles i h r s := by
  intro _ x rest hx
  rw [he] at hx
  cases hx

theorem throw (e : Error) : Settles i h (MonadExcept.throw e : Reader α) s :=
  of_error rfl

theorem pure {x : α} (hx : (Hold.still i).covers (h x) = true) :
    Settles i h (Pure.pure x : Reader α) s := by
  obtain ⟨hquoting, hseen, htakes, _⟩ := Hold.covers_iff.mp hx
  intro hfits y rest hy
  cases hy
  refine ⟨[], rfl, hquoting.symm, hfits.forget hseen, fun ht => ?_, fun _ _ hne => absurd rfl hne,
    fun _ _ => rfl, fun p u hpu hp => ?_⟩
  · cases htakes ht
  · obtain ⟨rfl, rfl⟩ := List.append_eq_nil_iff.mp hpu.symm
    exact .whole rfl (Point.fits_nil.mp (hp.forget hseen)) rfl

theorem ite {c : Prop} [Decidable c] {r' : Reader α} (hr : c → Settles i h r s)
    (hr' : ¬c → Settles i h r' s) : Settles i h (if c then r else r') s := by
  by_cases hc : c
  · rw [if_pos hc]
    exact hr hc
  · rw [if_neg hc]
    exact hr' hc

/-- A reader settles all that follows from its holds. -/
theorem weaken (hr : Settles i h r s) (hg : ∀ x, (h x).covers (g x) = true) :
    Settles i g r s := by
  intro hfits x rest hx
  obtain ⟨used, hs, hu⟩ := hr hfits x rest hx
  have hcover := fun y => Hold.covers_iff.mp (hg y)
  have hnone : ∀ y, (h y).seen = none → (g y).seen = none := fun y hy =>
    Point.fits_nil.mp ((Point.fits_nil.mpr hy).forget (hcover y).2.1)
  obtain ⟨hquoting, hseen, htakes, hfirm⟩ := hcover x
  refine ⟨used, hs, hu.quoting.trans hquoting.symm, hu.fits.forget hseen,
    fun ht => hu.takes (htakes ht), fun hf ho => hu.ends (hfirm hf) (hquoting.symm.trans ho),
    fun v hv => hu.again v (hv.imp_left hfirm), fun p u hpu hp => ?_⟩
  cases hu.cut p u hpu hp with
  | short he hcat => exact .short he hcat
  | numeral hcut hloose =>
      refine .numeral hcut fun y t hy => ?_
      obtain ⟨hy, hyseen, ht⟩ := hloose y t hy
      refine ⟨Bool.eq_false_iff.mpr fun hgy => ?_, hnone y hyseen, ht⟩
      rw [(hcover y).2.2.2 hgy] at hy
      cases hy
  | whole hu hxseen hp => exact .whole hu (hnone x hxseen) hp

/-- What holds for all texts holds for those that begin with a character that has been seen. -/
theorem seen {q : Quoting} (hr : Settles ⟨q, none⟩ h r s) (c : Char) :
    Settles ⟨q, some c⟩ h r s := by
  intro _ x rest hx
  obtain ⟨used, hs, hu⟩ := hr nofun x rest hx
  refine ⟨used, hs, hu.quoting, hu.fits, hu.takes, hu.ends, hu.again, fun p u hpu _ => ?_⟩
  cases hu.cut p u hpu nofun with
  | short hp hcat => exact .short hp hcat
  | numeral hcut hloose => exact .numeral hcut hloose
  | whole hu hseen hp => exact .whole hu hseen hp

/-! ## Sequences -/

variable {k : α → Reader β} {f : β → Hold}

/-- A value that a reader may give. -/
def Gives (r : Reader β) (z : β) : Prop :=
  ∃ s t, r s = .ok (z, t)

/-- At the end of the text, a reader that takes nothing gives a value that still depends on what may
follow. -/
theorem nothing_left {q : Point} {u : Hold} {g : β → Hold} {r : Reader β} (hr : Settles q g r [])
    (hq : q.seen = none) (hu : u.firm = false)
    (hjoin : ∀ z, Gives r z → (u.followedBy (g z)).covers (f z) = true) {z : β} {t : List Char}
    (hz : r [] = .ok (z, t)) : (f z).firm = false ∧ (f z).seen = none ∧ t = [] := by
  obtain ⟨used, hused, hsettled⟩ := hr (Point.fits_nil.mpr hq) z t hz
  obtain ⟨rfl, rfl⟩ := List.append_eq_nil_iff.mp hused.symm
  obtain ⟨_, hseen, _, hfirm⟩ := Hold.followedBy_covers (hjoin z ⟨_, _, hz⟩)
  refine ⟨Bool.eq_false_iff.mpr fun hf => ?_, Point.fits_nil.mp (hsettled.fits.forget hseen), rfl⟩
  rcases (hfirm hf).2 with hfirst | htakes
  · rw [hu] at hfirst
    cases hfirst
  · exact hsettled.takes htakes rfl

/-- A cut inside what the second reader takes. -/
theorem cut_second {g : β → Hold} {x : α} {z : β} {used p u rest rest' : List Char}
    (hu : Settled i h r x used rest) (hp : r (used ++ p) = .ok (x, p))
    (hjoin : ∀ z, Gives (k x) z → ((h x).followedBy (g z)).covers (f z) = true)
    (hcut : Cut (h x).toPoint g (k x) z p u rest') : Cut i f (r >>= k) z (used ++ p) u rest' := by
  have hseen : ∀ z, Gives (k x) z → (g z).seen = none → (f z).seen = none := by
    intro z hgives hz
    have hcovers := Hold.followedBy_covers (hjoin z hgives)
    exact Point.fits_nil.mp ((Point.fits_nil.mpr hz).forget hcovers.2.1)
  cases hcut with
  | short he hcat => exact .short (by rw [Reader.bind_ok hp, he]) hcat
  | numeral hcut hloose =>
      refine .numeral (.behind (by rwa [hu.quoting])) fun y t hy => ?_
      rw [Reader.bind_ok hp] at hy
      obtain ⟨hfirm, hyseen, ht⟩ := hloose y t hy
      have hgives : Gives (k x) y := ⟨_, _, hy⟩
      refine ⟨Bool.eq_false_iff.mpr fun hf => ?_, hseen y hgives hyseen, ht⟩
      rw [((Hold.followedBy_covers (hjoin y hgives)).2.2.2 hf).1] at hfirm
      cases hfirm
  | whole hu hzseen hz =>
      exact .whole hu (hseen z ⟨_, _, hz⟩ hzseen) (by rw [Reader.bind_ok hp, hz])

/-- A cut inside what the first reader takes, or right behind it. -/
theorem cut_first {g : α → β → Hold} {x : α} {z : β} {used used' p c rest : List Char}
    (hu : Settled i h r x used (used' ++ rest))
    (hu' : Settled (h x).toPoint (g x) (k x) z used' rest)
    (hk : used ≠ [] → ∀ y, Settles (h y).toPoint (g y) (k y) [])
    (hjoin : ∀ x z, Gives (k x) z → ((h x).followedBy (g x z)).covers (f z) = true)
    (hpc : used = p ++ c) (hp : i.Fits p) : Cut i f (r >>= k) z p (c ++ used') rest := by
  cases hu.cut p c hpc hp with
  | short he hcat => exact .short (Reader.bind_error he) hcat
  | numeral hcut hloose =>
      have hused : used ≠ [] := by simp [hpc, hcut.ne_nil]
      refine .numeral (by rwa [List.append_assoc]) fun z' t hz' => ?_
      obtain ⟨y, t', hy, hyz⟩ := Reader.bind_eq_ok hz'
      obtain ⟨hyfirm, hyseen, rfl⟩ := hloose y t' hy
      exact nothing_left (hk hused y) hyseen hyfirm (hjoin y) hyz
  | whole hc hseen hxp =>
      obtain rfl : used = p := by simpa [hc] using hpc
      have hcut := cut_second hu (by rwa [List.append_nil]) (hjoin x)
        (hu'.cut [] used' rfl (Point.fits_nil.mpr hseen))
      rwa [List.append_nil, ← List.nil_append used', ← hc] at hcut

/-- A sequence of two readers, where the second one is only asked about texts that it may meet. -/
theorem bind_within {g : α → β → Hold} (hr : Settles i h r s)
    (hk : ∀ x rest, rest.length ≤ s.length → ((h x).takes = true → rest.length < s.length) →
      Settles (h x).toPoint (g x) (k x) rest)
    (hjoin : ∀ x z, Gives (k x) z → ((h x).followedBy (g x z)).covers (f z) = true) :
    Settles i f (r >>= k) s := by
  intro hfits z rest' hz
  obtain ⟨x, rest, hx, hxz⟩ := Reader.bind_eq_ok hz
  obtain ⟨used, rfl, hu⟩ := hr hfits x rest hx
  have hshorter : (h x).takes = true → rest.length < (used ++ rest).length := by
    intro ht
    have hlength := List.length_pos_iff.mpr (hu.takes ht)
    rw [List.length_append]
    omega
  obtain ⟨used', rfl, hu'⟩ :=
    hk x rest (by rw [List.length_append]; omega) hshorter hu.fits z rest' hxz
  obtain ⟨hquoting, hseen, htakes, hfirm⟩ := Hold.followedBy_covers (hjoin x z ⟨_, _, hxz⟩)
  refine ⟨used ++ used', (List.append_assoc ..).symm, ?_, hu'.fits.forget hseen, ?_, ?_, ?_, ?_⟩
  · rw [Quoting.through_append, hu.quoting, hu'.quoting, hquoting]
  · intro ht hnil
    obtain ⟨rfl, rfl⟩ := List.append_eq_nil_iff.mp hnil
    rcases htakes ht with hfirst | hsecond
    · exact hu.takes hfirst rfl
    · exact hu'.takes hsecond rfl
  · intro hf ho hne
    obtain ⟨hgfirm, hlast⟩ := hfirm hf
    cases used' with
    | nil =>
        rw [List.append_nil] at hne ⊢
        rcases hlast with hfirst | hsecond
        · exact hu.ends hfirst (hu'.quoting.trans (hquoting.symm.trans ho)) hne
        · exact absurd rfl (hu'.takes hsecond)
    | cons d used' =>
        obtain ⟨w, c, hw, hc⟩ := hu'.ends hgfirm (hquoting.symm.trans ho) (List.cons_ne_nil _ _)
        exact ⟨used ++ w, c, by rw [hw, List.append_assoc], hc⟩
  · intro v hv
    have hsecond : k x (used' ++ v) = .ok (z, v) := hu'.again v (hv.imp_left fun hf => (hfirm hf).1)
    rw [List.append_assoc, Reader.bind_ok (hu.again (used' ++ v) ?_), hsecond]
    cases used' with
    | nil =>
        refine hv.imp_left fun hf => ?_
        rcases (hfirm hf).2 with hfirst | hsecond
        · exact hfirst
        · exact absurd rfl (hu'.takes hsecond)
    | cons d used' => exact .inr rfl
  · have hnil : used ≠ [] → ∀ y, Settles (h y).toPoint (g y) (k y) [] := fun hne y =>
      hk y [] (Nat.zero_le _) fun _ => List.length_pos_iff.mpr (by simp [hne])
    intro p u hpu hp
    rcases List.append_eq_append_iff.mp hpu with ⟨p', rfl, rfl⟩ | ⟨c, hpc, rfl⟩
    · cases p' with
      | nil => exact cut_first (c := []) hu hu' hnil hjoin (by simp) hp
      | cons d p' =>
          have hsame : r (used ++ d :: p') = .ok (x, d :: p') := hu.again _ (.inr rfl)
          exact cut_second hu hsame (hjoin x) (hu'.cut _ u rfl fun c hc => hu.fits c hc)
    · exact cut_first hu hu' hnil hjoin hpc hp

/-- A sequence of two readers. -/
theorem bind {g : α → β → Hold} (hr : Settles i h r s)
    (hk : ∀ x rest, Settles (h x).toPoint (g x) (k x) rest)
    (hjoin : ∀ x z, ((h x).followedBy (g x z)).covers (f z) = true) : Settles i f (r >>= k) s :=
  hr.bind_within (fun x rest _ _ => hk x rest) fun x z _ => hjoin x z

/-- A value that is made from the value of a reader. -/
theorem map {m : α → β} (hr : Settles i h r s) (hm : ∀ x, (h x).covers (f (m x)) = true) :
    Settles i f (r >>= fun x => Pure.pure (m x)) s := by
  refine hr.bind_within (g := fun x _ => .still (h x).toPoint)
    (fun x rest _ _ => pure (Hold.covers_self _)) fun x z hz => ?_
  obtain ⟨t, t', ht⟩ := hz
  cases ht
  have hcovers := hm x
  rw [Hold.covers_iff] at hcovers ⊢
  simpa [Hold.followedBy, Hold.still] using hcovers

/-- What takes no text and depends on none settles nothing by itself. -/
theorem lift_bind {y : Except Error α} (hk : ∀ x, y = .ok x → Settles i f (k x) s) :
    Settles i f ((liftM y : Reader α) >>= k) s := by
  cases y with
  | error e => exact of_error rfl
  | ok x => exact hk x rfl

theorem lift {y : Except Error α} (hy : ∀ x, (Hold.still i).covers (h x) = true) :
    Settles i h (liftM y : Reader α) s := by
  cases y with
  | error e => exact of_error rfl
  | ok x => exact pure (hy x)

/-! ## Characters -/

/-- Takes a character that has been seen. -/
theorem advance {q : Quoting} {c : Char} (hc : isSpace c = false) :
    Settles ⟨q, some c⟩ (fun _ => ⟨⟨q.after c, none⟩, true, true⟩) Json.advance s := by
  intro hfits x rest hx
  obtain ⟨t, rfl⟩ := List.head?_eq_some_iff.mp (hfits c rfl)
  cases hx
  refine ⟨[c], rfl, rfl, nofun, fun _ => List.cons_ne_nil _ _,
    fun _ _ _ => ⟨[], c, rfl, hc⟩, fun _ _ => rfl, fun p u hpu hp => ?_⟩
  obtain ⟨p', rfl⟩ := List.head?_eq_some_iff.mp (hp c rfl)
  simp only [List.cons_append, List.cons.injEq, true_and, List.nil_eq,
    List.append_eq_nil_iff] at hpu
  obtain ⟨rfl, rfl⟩ := hpu
  exact .whole rfl rfl rfl

/-- Takes a character that has been seen, outside of strings, and goes on. -/
theorem behind {c : Char} {g : β → Hold} {r : Reader β} (hc : isSpace c = false ∧ c ≠ '"')
    (hr : ∀ t, Settles .start g r t)
    (hjoin : ∀ z, (Hold.closed.followedBy (g z)).covers (f z) = true) :
    Settles (.facing c) f (Json.advance >>= fun _ => r) s := by
  refine .bind (g := fun _ => g) (.advance hc.1) (fun _ t => ?_) fun _ z => hjoin z
  rw [Quoting.after_outside hc.2]
  exact hr t

/-- Takes a character of a string. -/
theorem next (q : Quoting) (hq : q ≠ .outside) {e : Error} (he : e.category = .eof) :
    Settles ⟨q, none⟩ (fun c => ⟨⟨q.after c, none⟩, true, true⟩) (Json.next e) s := by
  intro _ c rest hx
  cases s with
  | nil => cases hx
  | cons d s =>
      cases hx
      refine ⟨[c], rfl, rfl, nofun, fun _ => List.cons_ne_nil _ _, fun _ ho _ => ?_,
        fun _ _ => rfl, fun p u hpu _ => ?_⟩
      · refine ⟨[], c, rfl, ?_⟩
        rw [Quoting.quote_of_leaves hq ho]
        rfl
      · cases p with
        | nil => exact .short rfl he
        | cons d p =>
            simp only [List.cons_append, List.cons.injEq, List.nil_eq,
              List.append_eq_nil_iff] at hpu
            obtain ⟨rfl, rfl, rfl⟩ := hpu
            exact .whole rfl rfl rfl

theorem peek_of_blanks {b : List Char} (hb : Blanks b) : Json.peek b = .ok (none, []) := by
  rw [← List.append_nil b, peek_blanks hb]
  rfl

theorem exists_blanks (s : List Char) : ∃ b, Blanks b ∧ (s = b ∨
    ∃ c t, s = b ++ c :: t ∧ isSpace c = false) := by
  induction s with
  | nil => exact ⟨[], nofun, .inl rfl⟩
  | cons d s ih =>
      cases hd : isSpace d with
      | false => exact ⟨[], nofun, .inr ⟨d, s, rfl, hd⟩⟩
      | true =>
          obtain ⟨b, hb, hs⟩ := ih
          refine ⟨d :: b, List.forall_mem_cons.mpr ⟨hd, hb⟩, ?_⟩
          rcases hs with rfl | ⟨c, t, rfl, hc⟩
          · exact .inl rfl
          · exact .inr ⟨c, t, rfl, hc⟩

/-- Looks at the next character behind any blanks. A value that is firm has to take it. -/
theorem peek {k : Option Char → Reader β} {e : Error} (hnone : k none [] = .error e)
    (he : e.category = .eof)
    (hsome : ∀ c t, isSpace c = false → Settles (.facing c) f (k (some c)) (c :: t))
    (hfirm : ∀ z, (f z).decided = true) :
    Settles .start f (Json.peek >>= k) s := by
  have hblank : ∀ b, Blanks b → (Json.peek >>= k) b = .error e := by
    intro b hb
    rw [Reader.bind_ok (peek_of_blanks hb), hnone]
  intro _ z rest hz
  obtain ⟨b, hb, rfl | ⟨c, t, rfl, hc⟩⟩ := exists_blanks s
  · rw [hblank s hb] at hz
    cases hz
  have hpeek : ∀ t, (Json.peek >>= k) (b ++ c :: t) = k (some c) (c :: t) := by
    intro t
    rw [Reader.bind_ok ((peek_blanks hb _).trans (peek_cons hc t))]
  rw [hpeek] at hz
  obtain ⟨used, hs, hu⟩ := hsome c t hc (fun d hd => by cases hd; rfl) z rest hz
  have htakes : (f z).firm = true → used ≠ [] := by
    intro hf
    have htakes := hfirm z
    rw [Hold.decided, hf] at htakes
    exact hu.takes htakes
  refine ⟨b ++ used, by rw [hs, List.append_assoc], ?_, hu.fits, fun ht hnil => ?_,
    fun hf ho _ => ?_, fun v hv => ?_, fun p u hpu _ => ?_⟩
  · rw [Quoting.through_append, Quoting.through_blanks hb]
    exact hu.quoting
  · exact hu.takes ht (List.append_eq_nil_iff.mp hnil).2
  · obtain ⟨w, d, rfl, hd⟩ := hu.ends hf ho (htakes hf)
    exact ⟨b ++ w, d, by rw [List.append_assoc], hd⟩
  · have hsame : ∃ t', used ++ v = c :: t' := by
      cases used with
      | nil =>
          rcases hv with hf | hhead
          · exact absurd rfl (htakes hf)
          · rw [List.nil_append] at hs ⊢
            rw [← hs] at hhead
            exact List.head?_eq_some_iff.mp hhead
      | cons d used =>
          cases hs
          exact ⟨used ++ v, rfl⟩
    obtain ⟨t', ht'⟩ := hsame
    rw [List.append_assoc, ht', hpeek, ← ht', hu.again v hv]
  · rcases List.append_eq_append_iff.mp hpu with ⟨p', rfl, rfl⟩ | ⟨b', rfl, rfl⟩
    · cases p' with
      | nil =>
          rw [List.append_nil]
          exact .short (hblank b hb) he
      | cons d p' =>
          cases hs
          cases hu.cut (c :: p') u rfl (fun d hd => by cases hd; rfl) with
          | short hp hcat => exact .short ((hpeek p').trans hp) hcat
          | numeral hcut hloose =>
              refine .numeral (.behind (by rwa [Quoting.through_blanks hb])) fun y t hy => ?_
              rw [hpeek] at hy
              exact hloose y t hy
          | whole hu hseen hp => exact .whole hu hseen ((hpeek p').trans hp)
    · exact .short (hblank p fun d hd => hb d (List.mem_append_left _ hd)) he

/-! ## Loops -/

variable {step : σ → Reader (σ ⊕ β)}

/-- A loop settles what its last round does, if every other round takes a character and comes back
to the same point. -/
theorem loop {q : Quoting} {h : σ ⊕ β → Hold}
    (hstep : ∀ a s, Settles ⟨q, none⟩ h (step a) s)
    (hnext : ∀ b, (h (.inl b)).toPoint = ⟨q, none⟩ ∧ (h (.inl b)).takes = true)
    (hlast : ∀ b x, ((h (.inl b)).followedBy (h (.inr x))).covers (h (.inr x)) = true) (a : σ)
    (s : List Char) : Settles ⟨q, none⟩ (fun x => h (.inr x)) (Reader.loop step a) s := by
  have hconsumes : Reader.Consumes step := by
    intro a s b rest hs
    obtain ⟨used, rfl, hu⟩ := hstep a s nofun _ _ hs
    have hlength := List.length_pos_iff.mpr (hu.takes (hnext b).2)
    rw [List.length_append]
    omega
  induction hn : s.length using Nat.strongRecOn generalizing a s with
  | ind n ih =>
      subst hn
      rw [Reader.loop_eq hconsumes]
      refine (hstep a s).bind_within
        (g := fun y z => y.elim (fun _ => h (.inr z)) fun x => .still (h (.inr x)).toPoint)
        (fun y rest _ hrest => ?_) fun y z hz => ?_
      · cases y with
        | inl b =>
            rw [(hnext b).1]
            exact ih _ (hrest (hnext b).2) b rest rfl
        | inr x => exact pure (Hold.covers_self _)
      · cases y with
        | inl b => exact hlast b z
        | inr x =>
            obtain ⟨t, t', ht⟩ := hz
            cases ht
            simp [Hold.covers_iff, Hold.followedBy, Hold.still]

end Settles

end Adorn.Json
