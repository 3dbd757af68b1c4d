import Adorn.Proofs.Classification
import Mathlib.Data.List.Induction

/-!
# Names registered step by step

In code the tables of names grow by one registration after another,
bindings and markers in any order. Bindings are looked up before
markers, and a token is trimmed before it is looked up while a name is
registered as it stands.

`Options.RegisteredBy` tells what a run has made of the tables: what
was in them and what was registered. One more registration keeps it up
(`Options.RegisteredBy.concat`), so the order of a run leaves no trace
(`Options.RegisteredBy.unique`). A token goes where the tables put its
trimmed text (`Name.classify?_placed`), and the registration of another
name does not move it (`Options.classify?_register_insert`).
-/

namespace Adorn

namespace Options

/-! ## Runs -/

/-- One more name in one of the two tables. -/
inductive Registration where
  | binding (name : String)
  | marker (name : String)
  deriving DecidableEq

namespace Registration

def name : Registration → String
  | .binding n | .marker n => n

def apply (o : Options) : Registration → Options
  | .binding n => o.addBinding n
  | .marker n => o.addMarker n

end Registration

/-- The options after some registrations, one after another. -/
def register (o : Options) (rs : List Registration) : Options :=
  rs.foldl Registration.apply o

theorem register_concat (o : Options) (rs : List Registration) (r : Registration) :
    o.register (rs ++ [r]) = r.apply (o.register rs) := by
  rw [register, List.foldl_append, register]
  rfl

/-! ## What a run has made -/

/-- Options that registrations have made of others: names were added to the two tables and nothing
else has changed. -/
structure RegisteredBy (o : Options) (rs : List Registration) (p : Options) : Prop where
  isBinding : ∀ n, p.isBinding n = true ↔ o.isBinding n = true ∨ .binding n ∈ rs
  isMarker : ∀ n, p.isMarker n = true ↔ o.isMarker n = true ∨ .marker n ∈ rs
  classProps : p.classProps = o.classProps
  classic : p.classic = o.classic

namespace RegisteredBy

variable {o p p' : Options} {rs rs' : List Registration}

theorem nil (o : Options) : RegisteredBy o [] o where
  isBinding := by simp
  isMarker := by simp
  classProps := rfl
  classic := rfl

/-- One more registration, which leaves the other table alone. -/
theorem concat (h : RegisteredBy o rs p) (r : Registration) :
    RegisteredBy o (rs ++ [r]) (r.apply p) := by
  cases r with
  | binding name =>
      refine ⟨fun n => ?_, fun n => ?_, h.classProps, h.classic⟩
      · have hinsert : (p.addBinding name).isBinding n = (n == name || p.isBinding n) :=
          p.bindings.contains_insert name n
        rw [Registration.apply, hinsert, Bool.or_eq_true, h.isBinding]
        simp [or_left_comm, or_comm]
      · have hsame : (p.addBinding name).isMarker n = p.isMarker n := rfl
        rw [Registration.apply, hsame, h.isMarker]
        simp
  | marker name =>
      refine ⟨fun n => ?_, fun n => ?_, h.classProps, h.classic⟩
      · have hsame : (p.addMarker name).isBinding n = p.isBinding n := rfl
        rw [Registration.apply, hsame, h.isBinding]
        simp
      · have hinsert : (p.addMarker name).isMarker n = (n == name || p.isMarker n) :=
          p.markers.contains_insert name n
        rw [Registration.apply, hinsert, Bool.or_eq_true, h.isMarker]
        simp [or_left_comm, or_comm]

/-- Only what was registered counts, neither in which order nor how often. -/
theorem unique (h : RegisteredBy o rs p) (h' : RegisteredBy o rs' p')
    (hsame : ∀ r, r ∈ rs ↔ r ∈ rs') : p = p' := by
  have hbindings : p.bindings = p'.bindings := NameSet.ext_contains fun n => by
    rw [Bool.eq_iff_iff]
    exact (h.isBinding n).trans ((or_congr_right (hsame _)).trans (h'.isBinding n).symm)
  have hmarkers : p.markers = p'.markers := NameSet.ext_contains fun n => by
    rw [Bool.eq_iff_iff]
    exact (h.isMarker n).trans ((or_congr_right (hsame _)).trans (h'.isMarker n).symm)
  have hprops := h.classProps.trans h'.classProps.symm
  have hclassic := h.classic.trans h'.classic.symm
  cases p
  cases p'
  simp_all only

end RegisteredBy

theorem registeredBy (o : Options) (rs : List Registration) :
    RegisteredBy o rs (o.register rs) := by
  induction rs using List.reverseRecOn with
  | nil => exact RegisteredBy.nil o
  | append_singleton rs r ih =>
      rw [register_concat]
      exact ih.concat r

/-! ## Tokens after a run -/

section

variable {o : Options} {rs rs' : List Registration} {raw : String}

/-- Of all registrations, only those of the trimmed text of a token tell where it goes. -/
theorem classify?_register_congr
    (hbinding : .binding (Text.trim raw) ∈ rs ↔ .binding (Text.trim raw) ∈ rs')
    (hmarker : .marker (Text.trim raw) ∈ rs ↔ .marker (Text.trim raw) ∈ rs') :
    Name.classify? (o.register rs) raw = Name.classify? (o.register rs') raw := by
  have hbound : (o.register rs).isBinding (Text.trim raw)
      = (o.register rs').isBinding (Text.trim raw) := by
    rw [Bool.eq_iff_iff, (o.registeredBy rs).isBinding, (o.registeredBy rs').isBinding, hbinding]
  have hmarked : (o.register rs).isMarker (Text.trim raw)
      = (o.register rs').isMarker (Text.trim raw) := by
    rw [Bool.eq_iff_iff, (o.registeredBy rs).isMarker, (o.registeredBy rs').isMarker, hmarker]
  exact Name.classify?_congr rfl hbound hmarked

/-- A registration of another name, anywhere in a run. -/
theorem classify?_register_insert {r : Registration} (h : Text.trim raw ≠ r.name)
    (before after : List Registration) :
    Name.classify? (o.register (before ++ r :: after)) raw
      = Name.classify? (o.register (before ++ after)) raw := by
  have hother : ∀ q : Registration, q.name = Text.trim raw →
      (q ∈ before ++ r :: after ↔ q ∈ before ++ after) := by
    intro q hq
    have hne : q ≠ r := by
      rintro rfl
      exact h hq.symm
    simp [hne]
  exact classify?_register_congr (hother _ rfl) (hother _ rfl)

end

/-- After any run of registrations a token goes where the names that the tables held and those that
were registered put its trimmed text. So it does not count in which order or how often names are
registered. One more marker, wherever it stands in the run, makes no binding of a token and takes
none away; one more name that is not the trimmed text of a token leaves that token where it was, and
one with a blank at an end leaves all of them. The rest of the options is as before. -/
theorem register_places (o : Options) (rs : List Registration) :
    (∀ raw, Name.Placed (fun n => o.isBinding n = true ∨ .binding n ∈ rs)
      (fun n => o.isMarker n = true ∨ .marker n ∈ rs) (Text.trim raw)
      (Name.classify? (o.register rs) raw))
    ∧ (∀ rs', (∀ r, r ∈ rs ↔ r ∈ rs') → o.register rs = o.register rs')
    ∧ (∀ before after, rs = before ++ after →
      (∀ name raw t, Name.classify? (o.register (before ++ .marker name :: after)) raw
          = some (.binding t) ↔ Name.classify? (o.register rs) raw = some (.binding t))
      ∧ (∀ (r : Registration) (raw : String), Text.trim raw ≠ r.name →
        Name.classify? (o.register (before ++ r :: after)) raw = Name.classify? (o.register rs) raw)
      ∧ ∀ r : Registration, Text.HasBlankEdge r.name → ∀ raw,
        Name.classify? (o.register (before ++ r :: after)) raw = Name.classify? (o.register rs) raw)
    ∧ (o.register rs).classProps = o.classProps
    ∧ (o.register rs).classic = o.classic := by
  have hmade := o.registeredBy rs
  refine ⟨fun raw => ?_, fun rs' hsame => hmade.unique (o.registeredBy rs') hsame, ?_,
    hmade.classProps, hmade.classic⟩
  · have hplaced := Name.classify?_placed (o.register rs) raw
    simpa only [hmade.isBinding, hmade.isMarker] using hplaced
  · rintro before after rfl
    refine ⟨fun name raw t => ?_, fun r raw hne => classify?_register_insert hne before after,
      fun r hedge raw => ?_⟩
    · -- A binding is told by the one table that a marker does not touch.
      simp only [Name.classify?_binding, (o.registeredBy _).isBinding, List.mem_append,
        List.mem_cons, reduceCtorEq, false_or]
    · exact classify?_register_insert (Text.trim_ne_of_hasBlankEdge hedge raw) before after

/-- A marker that is not there by default, and a binding. -/
def extension : List Registration :=
  [.marker "dropTask", .binding "href"]

theorem extension_places :
    Name.classify? (default.register extension) "\tdropTask " = some (.marker "dropTask")
      ∧ default.register extension
        = default.register [.binding "href", .marker "dropTask", .binding "href"]
      ∧ Name.classify?
          (default.register [.marker "dropTask", .marker "href", .binding "href"]) "href"
        = some (.binding "href")
      ∧ Name.classify?
          (default.register [.marker "dropTask", .binding "off", .binding "href"]) "offset"
        = Name.classify? (default.register extension) "offset"
      ∧ Text.HasBlankEdge " off"
      ∧ Name.classify?
          (default.register [.marker "dropTask", .binding " off", .binding "href"]) " off"
        = Name.classify? (default.register extension) " off" := by
  obtain ⟨hplaced, horder, hinsert, -⟩ := register_places default extension
  obtain ⟨hmarker, hother, hblank⟩ := hinsert [.marker "dropTask"] [.binding "href"] rfl
  have htask : Text.trim "\tdropTask " = "dropTask" := by decide +kernel
  have hhref : Text.trim "href" = "href" := by decide +kernel
  have hbound : Name.classify? (default.register extension) "href" = some (.binding "href") :=
    hhref ▸ (hplaced "href").binding.mpr (by rw [hhref]; simp [extension])
  have hedge : Text.HasBlankEdge " off" := ⟨' ', .inl (by decide +kernel), by decide⟩
  refine ⟨?_, horder _ fun r => ?_, (hmarker "href" "href" "href").mpr hbound, ?_, hedge,
    hblank (.binding " off") hedge " off"⟩
  · refine htask ▸ (hplaced "\tdropTask ").marker.mpr ?_
    rw [htask]
    decide +kernel
  · simp only [extension, List.mem_cons]
    tauto
  · exact hother (.binding "off") "offset" (by decide +kernel)

end Options

end Adorn
