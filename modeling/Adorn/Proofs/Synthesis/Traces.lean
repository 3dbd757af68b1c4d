import Adorn.Proofs.Synthesis.Names
import Adorn.Trace.Event

/-!
# What a trace tells

Decorators and events are made at different places: the rules make the
decorators, and what is recorded is recorded where they are put
together. `Traced.events` is all that was recorded, with no level left
out, and its laws follow the events through the computation. Of a
member that is not volatile the events are its decorators, one for one;
of a list of tokens they are the blank ones. A document may be refused
after it was decoded, and what was recorded until then is not lost with
it: that nothing was, is a fact about the order of the steps.
-/

namespace Adorn

/-! ## Events -/

/-- The event of an entry; a span is none. -/
def Entry.event? : Entry → Option Event
  | .recorded _ e => some e
  | .opened _ | .closed _ => none

/-- The text that an event shows under a key. -/
def Event.shown? (e : Event) (key : String) : Option String :=
  (e.fields.lookup key).map Shown.text

/-- Whether an event announces a decorator. -/
def Event.isAnnouncement (e : Event) : Bool :=
  e.level == .trace && e.message == "synthesized decorator"

namespace Traced

variable {α β : Type}

/-- All events that were recorded, in their order. -/
def events (x : Traced α) : List Event :=
  x.entries.filterMap Entry.event?

@[simp] theorem events_pure (a : α) : (pure a : Traced α).events = [] := rfl

@[simp] theorem events_map (f : α → β) (x : Traced α) : (f <$> x).events = x.events := rfl

@[simp] theorem events_bind (x : Traced α) (f : α → Traced β) :
    (x >>= f).events = x.events ++ (f x.value).events :=
  List.filterMap_append

@[simp] theorem events_record (e : Event) : (record e).events = [e] := rfl

@[simp] theorem events_recordAll (es : List Event) : (recordAll es).events = es := by
  rw [events, recordAll, List.filterMap_map]
  exact List.filterMap_some

theorem event?_into (span : Span) (x : Entry) : (x.into span).event? = x.event? := by
  cases x with
  | opened s | closed s => rfl
  | recorded inside e => cases inside <;> rfl

/-- What is computed inside a span records the same events. -/
@[simp] theorem events_within (span : Span) (x : Traced α) : (within span x).events = x.events := by
  have hinto : Entry.event? ∘ Entry.into span = Entry.event? := funext (event?_into span)
  simp only [events, within, List.cons_append, List.filterMap_append, List.filterMap_map, hinto,
    List.filterMap_cons_none (show Entry.event? (.opened span) = none from rfl),
    List.filterMap_cons_none (show Entry.event? (.closed span) = none from rfl),
    List.filterMap_nil, List.append_nil]

end Traced

namespace Member

/-! ## Events of synthesis -/

section

variable {m : Member}

/-- The decorators of one name are announced one by one. -/
theorem decoratorsFor_events (hm : m.isVolatile = false) (n : Name) :
    (m.decoratorsFor n).events = (m.decoratorsFor n).value.map .synthesized := by
  have hcall : ∀ t, (Rules.callDecorators t m).events = [] := by
    intro t
    rw [Rules.callDecorators, if_neg (by simp [hm])]
    rfl
  unfold decoratorsFor
  split
  · rfl
  · cases n with
    | binding t | marker t =>
        simp only [Traced.events_bind, Traced.events_recordAll, Traced.events_pure]
        simp [bind, pure]
    | call t =>
        simp only [Traced.events_bind, Traced.events_recordAll, Traced.events_pure, hcall]
        simp [bind, pure]

theorem decoratorsForAll_events (hm : m.isVolatile = false) (ns : List Name) :
    (m.decoratorsForAll ns).events = (m.decoratorsForAll ns).value.map .synthesized := by
  induction ns with
  | nil => rfl
  | cons n ns ih =>
      have hvalue : (m.decoratorsForAll (n :: ns)).value
          = (m.decoratorsFor n).value ++ (m.decoratorsForAll ns).value := rfl
      rw [hvalue, List.map_append, ← decoratorsFor_events hm, ← ih]
      simp only [decoratorsForAll, Traced.events_bind, Traced.events_map]

/-- A volatile member is recorded as left alone; otherwise the decorators are recorded, and nothing
else. -/
theorem synthesize_events (m : Member) :
    m.synthesize.events
      = if m.isVolatile then [.memberSkipped] else m.synthesize.value.map .synthesized := by
  cases hm : m.isVolatile with
  | true =>
      rw [synthesize, Traced.events_within, if_pos hm]
      rfl
  | false =>
      have hvalue : m.synthesize.value = (m.decoratorsForAll m.names).value := by
        rw [synthesize, if_neg (by simp [hm])]
        rfl
      rw [hvalue, synthesize, Traced.events_within, if_neg (by simp [hm])]
      exact decoratorsForAll_events hm m.names

end

/-! ## Events of resolving names -/

/-- Only the blank tokens are recorded. -/
theorem resolve_events (o : Options) (raws : List String) :
    (resolve o raws).events = (raws.filter Text.isBlankText).map .dropped := by
  induction raws with
  | nil => rfl
  | cons raw raws ih =>
      have hsome := Name.classify?_isSome o raw
      rw [resolve]
      cases hname : Name.classify? o raw with
      | none =>
          have hblank : Text.isBlankText raw = true := by simpa [hname] using hsome
          rw [List.filter_cons_of_pos hblank, List.map_cons]
          simp [ih]
      | some n =>
          have hblank : ¬Text.isBlankText raw = true := by simpa [hname] using hsome
          rw [List.filter_cons_of_neg hblank]
          simp [ih]

/-- Every token either has a name or is recorded. -/
theorem length_resolve (o : Options) (raws : List String) :
    raws.length = (resolve o raws).value.length + (resolve o raws).events.length := by
  rw [resolve_value, resolve_events, List.length_filterMap_eq_countP, List.length_map,
    ← List.countP_eq_length_filter]
  simp only [Name.classify?_isSome]
  rw [Nat.add_comm, List.length_eq_countP_add_countP (p := Text.isBlankText)]
  simp

theorem ofNames_events (o : Options) (raws : List String) :
    (ofNames o raws).events = (resolve o raws).events := by
  simp [ofNames]

/-! ## Events of a document -/

/-- One event for each token, in their order: it is shown at the debug level, and it shows the token
as it was written. -/
def RecordsDropped (events : List Event) (raws : List String) : Prop :=
  events.map (fun e => (e.level, e.shown? "raw")) = raws.map fun raw => (Level.debug, some raw)

theorem ofNames_recordsDropped (o : Options) (raws : List String) :
    RecordsDropped (ofNames o raws).events (raws.filter Text.isBlankText) := by
  rw [RecordsDropped, ofNames_events, Member.resolve_events, List.map_map]
  rfl

theorem Draft.resolve_recordsDropped (o : Options) (d : Draft) :
    RecordsDropped (d.resolve o).events ((d.names.filterMap id).filter Text.isBlankText) := by
  have hevents : (d.resolve o).events = (ofNames o (d.names.filterMap id)).events := by
    simp [Draft.resolve]
  rw [hevents]
  exact ofNames_recordsDropped o _

/-- The trace is a faithful record. A volatile member leaves one event at the debug level, which
belongs to synthesis as a whole and names no decorator. Any other member leaves none at that level,
and the decorators that are announced are those that are returned. The event of a call rule that
leaves a volatile member alone is never recorded. A list of tokens leaves one event for each that is
blank; in a document a null leaves none, and a document that is refused for a modifier leaves
nothing at all, whatever its tokens are. -/
theorem events_faithful :
    (∀ m : Member, m.isVolatile = true →
      ∃ e, m.synthesize.events = [e] ∧ e.level = .debug ∧ e.target = Span.target
        ∧ e.shown? "decorator" = none)
    ∧ (∀ m : Member, m.isVolatile = false →
      (∀ e ∈ m.synthesize.events, e.level ≠ .debug)
      ∧ (m.synthesize.events.filter Event.isAnnouncement).map (·.shown? "decorator")
        = m.synthesize.value.map (some ·.render))
    ∧ (∀ (m : Member) (name : String), Event.callSkipped name ∉ m.synthesize.events)
    ∧ (∀ (o : Options) (raws : List String),
      RecordsDropped (ofNames o raws).events (raws.filter Text.isBlankText)
      ∧ raws.length = (ofNames o raws).value.names.length + (ofNames o raws).events.length)
    ∧ ∀ (o : Options) (text : String) (d : Draft), Draft.decoder.run text = .ok d →
      (d.emptyModifier? = none →
        (read o text).value = .ok (d.resolve o).value
        ∧ RecordsDropped (read o text).events ((d.names.filterMap id).filter Text.isBlankText))
      ∧ ∀ i, d.emptyModifier? = some i →
        (read o text).value = .error (.emptyModifier i) ∧ (read o text).entries = [] := by
  refine ⟨fun m hm => ?_, fun m hm => ⟨?_, ?_⟩, fun m name => ?_, fun o raws => ⟨?_, ?_⟩,
    fun o text d hrun => ⟨fun hnone => ?_, fun i hi => ?_⟩⟩
  · exact ⟨.memberSkipped, by rw [synthesize_events, if_pos hm], rfl, rfl, rfl⟩
  · intro e he
    rw [synthesize_events, if_neg (by simp [hm])] at he
    obtain ⟨s, -, rfl⟩ := List.mem_map.mp he
    nofun
  · have hall : ∀ e ∈ m.synthesize.value.map Event.synthesized, e.isAnnouncement = true := by
      intro e he
      obtain ⟨s, -, rfl⟩ := List.mem_map.mp he
      rfl
    rw [synthesize_events, if_neg (by simp [hm]), List.filter_eq_self.mpr hall, List.map_map]
    rfl
  · rw [synthesize_events]
    split <;> simp
  · exact ofNames_recordsDropped o raws
  · rw [ofNames_events]
    exact length_resolve o raws
  · rw [read_resolved hrun hnone, Traced.events_map]
    exact ⟨rfl, d.resolve_recordsDropped o⟩
  · rw [read_blank hrun hi]
    exact ⟨rfl, rfl⟩

/-- A blank token, and a modifier whose property is blank. Its names would leave an event if they
were resolved before the modifiers are looked at. -/
def refusedText : String :=
  "\x7b\"decoratorNames\":[\" \"],\"modifiers\":[\x7b\"property\":\"\\t\"\x7d]\x7d"

/-- A text is decoded if something can be computed of its draft. -/
theorem run_tokens (text : String) (modifier : Option Nat) (blank : List String)
    (h : ((Draft.decoder.run text).map fun d =>
      (d.emptyModifier?, (d.names.filterMap id).filter Text.isBlankText)).toOption
        = some (modifier, blank)) :
    ∃ d, Draft.decoder.run text = .ok d ∧ d.emptyModifier? = modifier
      ∧ (d.names.filterMap id).filter Text.isBlankText = blank := by
  cases hrun : Draft.decoder.run text with
  | error e =>
      rw [hrun] at h
      cases h
  | ok d =>
      rw [hrun] at h
      obtain ⟨hmodifier, hblank⟩ := Prod.mk.inj (Option.some.inj h)
      exact ⟨d, rfl, hmodifier, hblank⟩

theorem documents_faithful :
    (∃ d, Draft.decoder.run paddedText = .ok d ∧ d.emptyModifier? = none
      ∧ RecordsDropped (read Options.default paddedText).events ["\u00a0"])
    ∧ (∃ d, Draft.decoder.run refusedText = .ok d ∧ d.emptyModifier? = some 0
      ∧ RecordsDropped (d.resolve Options.default).events [" "]
      ∧ (read Options.default refusedText).value = .error (.emptyModifier 0)
      ∧ (read Options.default refusedText).entries = [])
    ∧ (stacked.isVolatile = false
      ∧ (stacked.synthesize.events.filter Event.isAnnouncement).map (·.shown? "decorator")
        = stacked.synthesize.value.map (some ·.render))
    ∧ ∃ e, stacked.withVolatile.synthesize.events = [e] ∧ e.level = .debug := by
  obtain ⟨hvolatile, hothers, -, -, hdocuments⟩ := events_faithful
  refine ⟨?_, ?_, ⟨rfl, (hothers stacked rfl).2⟩, ?_⟩
  · obtain ⟨d, hrun, hnone, hblank⟩ := run_tokens paddedText none ["\u00a0"] (by decide +kernel)
    have hrecords := ((hdocuments Options.default paddedText d hrun).1 hnone).2
    rw [hblank] at hrecords
    exact ⟨d, hrun, hnone, hrecords⟩
  · obtain ⟨d, hrun, hzero, hblank⟩ := run_tokens refusedText (some 0) [" "] (by decide +kernel)
    have hwould := d.resolve_recordsDropped Options.default
    rw [hblank] at hwould
    exact ⟨d, hrun, hzero, hwould, (hdocuments Options.default refusedText d hrun).2 0 hzero⟩
  · obtain ⟨e, hevents, hlevel, -⟩ := hvolatile stacked.withVolatile rfl
    exact ⟨e, hevents, hlevel⟩

end Member

end Adorn
