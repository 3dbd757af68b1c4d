import Adorn.Log.Host
import Adorn.Proofs.Text.Trimming
import Mathlib.Data.List.Forall2

/-!
# The first log that is asked for

A host is asked for a log again and again, with given settings or with
those that variables ask for. The first request that asks for one at
all is granted and every other is turned down; the settings of the
subscriber are those of that request and stay as they are.

What a request asks for is said without the functions that read it:
`Log.Host.Request.Asks` and `Log.Host.Request.Wants` speak of the
values of the variables and of the text between the blanks around them.
One request does no more than to fill an empty place
(`Log.Host.step_spec`), so a run leaves there what the first of
its requests asks for (`Log.Host.run_installed`), and its answers are
those that the hosts on the way give (`Log.Host.run_getElem?`).
-/

namespace Adorn

/-! ## Letters in either case -/

namespace Text

/-- `t` is the word `w`, with any of its letters as capitals. -/
def InEitherCase (w t : String) : Prop :=
  List.Forall₂ (fun d c => c = d ∨ c = d.toUpper) w.toList t.toList

theorem isLower_iff {c : Char} : c.isLower = true ↔ 97 ≤ c.toNat ∧ c.toNat ≤ 122 := by
  refine Bool.and_eq_true_iff.trans (and_congr ?_ ?_)
  · exact decide_eq_true_iff.trans UInt32.le_iff_toNat_le
  · exact decide_eq_true_iff.trans UInt32.le_iff_toNat_le

theorem toNat_toLower (c : Char) :
    c.toLower.toNat = if 65 ≤ c.toNat ∧ c.toNat ≤ 90 then c.toNat + 32 else c.toNat := by
  have hbounds : c.val ≥ 'A'.val ∧ c.val ≤ 'Z'.val ↔ 65 ≤ c.toNat ∧ c.toNat ≤ 90 :=
    and_congr UInt32.le_iff_toNat_le UInt32.le_iff_toNat_le
  have hshift : ('a'.val - 'A'.val).toNat = 32 := rfl
  by_cases h : c.val ≥ 'A'.val ∧ c.val ≤ 'Z'.val
  · have hlower : c.toLower = _ := dif_pos h
    have hbound := hbounds.mp h
    rw [if_pos hbound, hlower, ← Char.toNat_val, UInt32.toNat_add, Char.toNat_val, hshift]
    omega
  · rw [if_neg (mt hbounds.mpr h)]
    exact congrArg Char.toNat (dif_neg h)

theorem toNat_toUpper (c : Char) :
    c.toUpper.toNat = if 97 ≤ c.toNat ∧ c.toNat ≤ 122 then c.toNat - 32 else c.toNat := by
  have hbounds : 'a'.val ≤ c.val ∧ c.val ≤ 'z'.val ↔ 97 ≤ c.toNat ∧ c.toNat ≤ 122 :=
    and_congr UInt32.le_iff_toNat_le UInt32.le_iff_toNat_le
  -- The way down goes round through the end of the word.
  have hshift : ('A'.val - 'a'.val).toNat = 4294967264 := rfl
  by_cases h : 'a'.val ≤ c.val ∧ c.val ≤ 'z'.val
  · have hupper : c.toUpper = _ := dif_pos h
    have hbound := hbounds.mp h
    rw [if_pos hbound, hupper, ← Char.toNat_val, UInt32.toNat_add, Char.toNat_val, hshift]
    omega
  · rw [if_neg (mt hbounds.mpr h)]
    exact congrArg Char.toNat (dif_neg h)

/-- Two characters are lowered to a given small letter: itself and its capital. -/
theorem toLower_eq_iff {c d : Char} (hd : d.isLower = true) :
    c.toLower = d ↔ c = d ∨ c = d.toUpper := by
  have hrange := isLower_iff.mp hd
  rw [← Char.toNat_inj, ← Char.toNat_inj, ← Char.toNat_inj, toNat_toLower, toNat_toUpper,
    if_pos hrange]
  split <;> omega

theorem map_toLower_eq_iff {ds cs : List Char} (hd : ∀ d ∈ ds, d.isLower = true) :
    cs.map Char.toLower = ds ↔ List.Forall₂ (fun d c => c = d ∨ c = d.toUpper) ds cs := by
  induction ds generalizing cs with
  | nil => simp
  | cons d ds ih =>
      obtain ⟨hhead, htail⟩ := List.forall_mem_cons.mp hd
      cases cs with
      | nil => simp
      | cons c cs =>
          rw [List.map_cons, List.cons.injEq, List.forall₂_cons, toLower_eq_iff hhead, ih htail]

/-- What trimming and lowering make of a text. -/
theorem lowerAscii_trim_eq_iff {w : String} (hw : ∀ d ∈ w.toList, d.isLower = true)
    {value : String} :
    lowerAscii (trim value) = w ↔ ∃ t, Stripped value t ∧ InEitherCase w t := by
  have hlower : ∀ t, lowerAscii t = w ↔ InEitherCase w t := by
    intro t
    rw [lowerAscii, ← String.toList_inj, String.toList_ofList, map_toLower_eq_iff hw, InEitherCase]
  constructor
  · intro h
    exact ⟨trim value, trim_stripped value, (hlower _).mp h⟩
  · rintro ⟨t, hstripped, hcase⟩
    rw [hstripped.eq_trim]
    exact (hlower t).mpr hcase

end Text

namespace Log

/-! ## What variables ask for -/

section

variable {lookup : String → Option String}

/-- The format variable is set to the word, in letters of either case and with blanks around it or
without. -/
def Format.NamedBy (lookup : String → Option String) (w : String) : Prop :=
  ∃ value t, lookup "DECLASS_LOG_FORMAT" = some value ∧ Text.Stripped value t
    ∧ Text.InEitherCase w t

/-- The settings that the variables ask for. The second variable counts only where the first is not
set, and being set to the empty text is being set. -/
structure Settings.AskedBy (lookup : String → Option String) (s : Settings) : Prop where
  directives : lookup "DECLASS_LOG" = some s.directives
    ∨ lookup "DECLASS_LOG" = none ∧ lookup "RUST_LOG" = some s.directives
  tree : s.format = .tree ↔ Format.NamedBy lookup "tree"
  json : s.format = .json ↔ Format.NamedBy lookup "json"
  text : s.format = .text ↔ ¬Format.NamedBy lookup "tree" ∧ ¬Format.NamedBy lookup "json"

/-- The word for a format; plain text needs none. -/
def Format.word? : Format → Option String
  | .text => none
  | .tree => some "tree"
  | .json => some "json"

theorem Format.parse_eq_iff {f : Format} {w : String} (hw : f.word? = some w) {value : String} :
    Format.parse value = f ↔ ∃ t, Text.Stripped value t ∧ Text.InEitherCase w t := by
  have hsmall : ∀ d ∈ w.toList, d.isLower = true := by
    cases f <;> cases hw <;> simp
  rw [← Text.lowerAscii_trim_eq_iff hsmall]
  cases f <;> cases hw <;> unfold Format.parse <;> grind

/-- A format other than plain text is taken only if it is named. -/
theorem Format.namedBy_iff {f : Format} {w : String} (hw : f.word? = some w) :
    ((lookup "DECLASS_LOG_FORMAT").map Format.parse).getD .text = f ↔ Format.NamedBy lookup w := by
  cases hvalue : lookup "DECLASS_LOG_FORMAT" with
  | none => cases f <;> cases hw <;> simp [NamedBy, hvalue]
  | some value => simp [NamedBy, hvalue, Format.parse_eq_iff hw]

theorem Settings.ofLookup?_eq_none :
    ofLookup? lookup = none ↔ lookup "DECLASS_LOG" = none ∧ lookup "RUST_LOG" = none := by
  unfold ofLookup?
  cases lookup "DECLASS_LOG" <;> cases lookup "RUST_LOG" <;> simp

theorem Settings.askedBy_of_ofLookup? {s : Settings} (h : ofLookup? lookup = some s) :
    s.AskedBy lookup := by
  obtain ⟨directives, hdirectives, hs⟩ := Option.bind_eq_some_iff.mp h
  have hformat : s.format = ((lookup "DECLASS_LOG_FORMAT").map Format.parse).getD .text := by
    rw [← Option.some.inj hs]
  have htree : s.format = .tree ↔ Format.NamedBy lookup "tree" := by
    rw [hformat, Format.namedBy_iff rfl]
  have hjson : s.format = .json ↔ Format.NamedBy lookup "json" := by
    rw [hformat, Format.namedBy_iff rfl]
  refine ⟨?_, htree, hjson, ?_⟩
  · rw [← Option.some.inj hs]
    cases hfirst : lookup "DECLASS_LOG" with
    | some first => exact Or.inl (by simpa [hfirst] using hdirectives)
    | none => exact Or.inr ⟨rfl, by simpa [hfirst] using hdirectives⟩
  · rw [← htree, ← hjson]
    cases s.format <;> simp

end

/-! ## One request -/

namespace Host

namespace Request

/-- Whether a request asks for a subscriber at all. One that leaves it to the variables does so if
either of the two is set. -/
def Asks : Request → Prop
  | .install _ => True
  | .init lookup => lookup "DECLASS_LOG" ≠ none ∨ lookup "RUST_LOG" ≠ none

/-- The settings that a request asks for. -/
def Wants : Request → Settings → Prop
  | .install s, t => t = s
  | .init lookup, t => t.AskedBy lookup

def asked? : Request → Option Settings
  | .install s => some s
  | .init lookup => Settings.ofLookup? lookup

theorem asked?_eq_none {r : Request} : r.asked? = none ↔ ¬r.Asks := by
  cases r with
  | install s => simp [asked?, Asks]
  | init lookup => rw [asked?, Settings.ofLookup?_eq_none, Asks, not_or, not_not, not_not]

theorem wants_of_asked? {r : Request} {s : Settings} (h : r.asked? = some s) : r.Wants s := by
  cases r with
  | install t => exact (Option.some.inj h).symm
  | init lookup => exact Settings.askedBy_of_ofLookup? h

end Request

theorem receive_installed (h : Host) (entries : List Entry) :
    (h.receive entries).installed = h.installed := by
  unfold receive
  split <;> rfl

/-- All that a request can do. It is granted if it asks for a subscriber and the place is empty, and
then it fills the place. -/
theorem step_spec (h : Host) (r : Request) :
    ((h.step r).1 = true ↔ h.installed = none ∧ r.asked? ≠ none)
      ∧ (h.step r).2.installed = h.installed.or r.asked? := by
  cases r with
  | install s =>
      rw [step, install, Request.asked?]
      cases hplace : h.installed <;> simp [hplace]
  | init lookup =>
      rw [step, init, Request.asked?]
      cases Settings.ofLookup? lookup with
      | none => simp
      | some s => cases hplace : h.installed <;> simp [install, receive_installed, hplace]

/-! ## Runs -/

theorem run_cons (h : Host) (r : Request) (rs : List Request) :
    h.run (r :: rs) = ((h.step r).1 :: ((h.step r).2.run rs).1, ((h.step r).2.run rs).2) := rfl

theorem run_installed (h : Host) (rs : List Request) :
    (h.run rs).2.installed = h.installed.or (rs.findSome? Request.asked?) := by
  induction rs generalizing h with
  | nil => simp [run]
  | cons r rs ih =>
      rw [run_cons, ih, (h.step_spec r).2, Option.or_assoc, List.findSome?_cons]
      cases r.asked? <;> rfl

theorem length_run (h : Host) (rs : List Request) : (h.run rs).1.length = rs.length := by
  induction rs generalizing h with
  | nil => rfl
  | cons r rs ih => rw [run_cons, List.length_cons, ih, List.length_cons]

/-- The answer to a request is given by the host that the requests before it have left. -/
theorem run_getElem? (h : Host) {rs : List Request} {i : Nat} {r : Request}
    (hr : rs[i]? = some r) : (h.run rs).1[i]? = some ((h.run (rs.take i)).2.step r).1 := by
  induction rs generalizing h i with
  | nil => cases hr
  | cons q rs ih =>
      cases i with
      | zero =>
          cases hr
          rfl
      | succ i => exact ih (h.step q).2 hr

theorem run_installed_eq_none {rs : List Request} :
    (start.run rs).2.installed = none ↔ ∀ q ∈ rs, ¬q.Asks := by
  rw [run_installed, start, Option.none_or, List.findSome?_eq_none_iff]
  simp only [Request.asked?_eq_none]

section

variable {rs : List Request} {i : Nat} {r : Request}

/-- A request is granted if it is the first that asks. -/
theorem run_granted (hr : rs[i]? = some r) :
    (start.run rs).1[i]? = some true ↔ r.Asks ∧ ∀ q ∈ rs.take i, ¬q.Asks := by
  rw [run_getElem? start hr, Option.some.injEq, (step_spec _ r).1, run_installed_eq_none, ne_eq,
    Request.asked?_eq_none, not_not, and_comm]

/-- No request is granted behind one that was. -/
theorem run_granted_le {j : Nat} (hi : (start.run rs).1[i]? = some true)
    (hj : (start.run rs).1[j]? = some true) : j ≤ i := by
  have hbound : ∀ {k : Nat}, (start.run rs).1[k]? = some true → ∃ q, rs[k]? = some q := by
    intro k hk
    obtain ⟨hlt, -⟩ := List.getElem?_eq_some_iff.mp hk
    exact ⟨_, List.getElem?_eq_getElem (length_run start rs ▸ hlt)⟩
  obtain ⟨q, hq⟩ := hbound hi
  obtain ⟨r, hr⟩ := hbound hj
  by_contra hlt
  have hearlier : (rs.take j)[i]? = some q := by
    rw [List.getElem?_take_of_lt (Nat.lt_of_not_le hlt), hq]
  exact ((run_granted hr).mp hj).2 q (List.mem_of_getElem? hearlier) ((run_granted hq).mp hi).1

/-- Nothing that comes later touches what was put in place. -/
theorem run_installed_of_granted (hr : rs[i]? = some r)
    (hi : (start.run rs).1[i]? = some true) :
    ∃ s, r.Wants s ∧ ∀ k, i < k → (start.run (rs.take k)).2.installed = some s := by
  obtain ⟨hasks, hbefore⟩ := (run_granted hr).mp hi
  cases hs : r.asked? with
  | none => exact absurd hasks (Request.asked?_eq_none.mp hs)
  | some s =>
      refine ⟨s, Request.wants_of_asked? hs, fun k hk => ?_⟩
      have hnone : (rs.take i).findSome? Request.asked? = none :=
        List.findSome?_eq_none_iff.mpr fun q hq => Request.asked?_eq_none.mpr (hbefore q hq)
      -- The run up to `k` is the run before the request, the request and whatever follows.
      have hsplit : rs.take k = rs.take i ++ r :: (rs.take k).drop (i + 1) := by
        obtain ⟨hlt, hget⟩ := List.getElem?_eq_some_iff.mp hr
        have hlen : i < (rs.take k).length := by
          rw [List.length_take]
          omega
        have hat : (rs.take k)[i] = r := by rw [List.getElem_take, hget]
        have hfront : (rs.take k).take i = rs.take i := by
          rw [List.take_take, Nat.min_eq_left hk.le]
        rw [← hfront, ← hat, ← List.drop_eq_getElem_cons hlen, List.take_append_drop]
      rw [run_installed, start, Option.none_or, hsplit, List.findSome?_append, hnone,
        Option.none_or, List.findSome?_cons, hs]

end

/-- The first request that asks for a subscriber is granted, and no other: each has its answer, which
is yes exactly if the request asks and none before it did, so there is at most one yes. Up to there
the host has no subscriber, and requests that do not ask leave it so. From there on it has the
settings of that request, whatever comes later: those given, or else the directives of the first
variable, or of the second where the first is not set, in the format that the third names. -/
theorem first_request_granted (rs : List Request) :
    (start.run rs).1.length = rs.length
    ∧ (∀ i r, rs[i]? = some r →
      ((start.run rs).1[i]? = some true ↔ r.Asks ∧ ∀ q ∈ rs.take i, ¬q.Asks))
    ∧ (∀ i j : Nat, (start.run rs).1[i]? = some true → (start.run rs).1[j]? = some true → i = j)
    ∧ (∀ k, (start.run (rs.take k)).2.installed = none ↔ ∀ q ∈ rs.take k, ¬q.Asks)
    ∧ ∀ i r, rs[i]? = some r → (start.run rs).1[i]? = some true →
      ∃ s, r.Wants s ∧ ∀ k, i < k → (start.run (rs.take k)).2.installed = some s := by
  refine ⟨length_run start rs, fun i r hr => run_granted hr, fun i j hi hj => ?_,
    fun k => run_installed_eq_none, fun i r hr hi => run_installed_of_granted hr hi⟩
  exact Nat.le_antisymm (run_granted_le hj hi) (run_granted_le hi hj)

/-- The variables that are set, with their values. -/
def valuesOf (pairs : List (String × String)) (key : String) : Option String :=
  pairs.lookup key

/-- Both directive variables, the first of them empty, and a format. -/
def emptyFirst : String → Option String :=
  valuesOf [("DECLASS_LOG", ""), ("RUST_LOG", "warn"), ("DECLASS_LOG_FORMAT", "\u2003Tree\n")]

/-- One request that asks for nothing but a format, and three that ask for a log. -/
def contested : List Request :=
  [.init (valuesOf [("DECLASS_LOG_FORMAT", "json")]), .init emptyFirst, .install ⟨.json, "off"⟩,
    .init (valuesOf [("RUST_LOG", "debug")])]

theorem contested_granted :
    (start.run contested).1[1]? = some true
      ∧ (∀ i : Nat, (start.run contested).1[i]? = some true → i = 1)
      ∧ Settings.AskedBy emptyFirst ⟨.tree, ""⟩
      ∧ ∀ k, 1 < k → (start.run (contested.take k)).2.installed = some ⟨.tree, ""⟩ := by
  obtain ⟨-, -, honce, -, hstays⟩ := first_request_granted contested
  have hyes : (start.run contested).1[1]? = some true := by decide +kernel
  obtain ⟨s, hwants, hinstalled⟩ := hstays 1 (.init emptyFirst) rfl hyes
  have hs : s = ⟨.tree, ""⟩ := by
    have hend : (start.run (contested.take 2)).2.installed = some ⟨.tree, ""⟩ := by decide +kernel
    exact Option.some.inj ((hinstalled 2 (Nat.lt_succ_self 1)).symm.trans hend)
  subst hs
  exact ⟨hyes, fun i hi => honce i 1 hi hyes, hwants, hinstalled⟩

end Host

end Log

end Adorn
