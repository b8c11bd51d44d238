import TensorGraph.Proofs.Engine.Arguments
import TensorGraph.Proofs.Graph.Keeps
/-!
# Orderly engines

The journal of an engine and its graph tell the same story: a base with an operation has a result
exactly if a unit for it has succeeded, and no unit for it begins or ends after that. A loader is
called when its sources have results, and a backend runs a tree on inputs that fit it.

- `Event.realizedIn`: the bases whose units succeeded.
- `Engine.Orderly`: the graph and the journal agree.
- `Engine.Advances`: how an engine goes on.
- `Engine.orderly`: what is known about an engine.
-/

namespace TensorGraph

open TensorGraph.Graph

variable {α : Type}

/-! ## Strict loaders -/

/-- The script ends without a result and asks for nothing more. -/
inductive Script.Refuses {n : Nat} : Script α n → Prop
  /-- With an error. -/
  | fail (cause : Error) : Refuses (.fail cause)
  /-- With a panic. -/
  | panic (text : String) : Refuses (.panic text)

/-- The script swallows no error: it refuses when a source cannot be read back. -/
inductive Script.Strict {n : Nat} : Script α n → Prop
  /-- With a result. -/
  | finish (block : Block α) : Strict (.finish block)
  /-- With an error. -/
  | fail (cause : Error) : Strict (.fail cause)
  /-- With a panic. -/
  | panic (text : String) : Strict (.panic text)
  /-- A source is read back. -/
  | read {source : Fin n} {next : Except Error (HostArray α) → Script α n}
    (herror : ∀ cause, (next (.error cause)).Refuses)
    (hok : ∀ array, (next (.ok array)).Strict) : Strict (.read source next)

/-- No script of the loader swallows an error. -/
def Loader.Strict (l : Loader α) : Prop :=
  ∀ earlier output sources, (l.script earlier output sources).Strict

/-- No loader of the graph swallows an error. -/
def Graph.Strict (g : Graph α) : Prop :=
  ∀ e ∈ g.entries, ∀ op, e.op = some op → ∀ l, op.arg = .loader l → l.Strict

theorem Graph.Strict.core {g : Graph α} (h : g.Strict) {e : Entry α} (he : e ∈ g.cores)
    {op : Tree α} (hop : e.op = some op) {l : Loader α} (hl : op.arg = .loader l) : l.Strict := by
  obtain ⟨f, hf, rfl⟩ := mem_cores.mp he
  exact h f hf op hop l hl

theorem Graph.Strict.of_grows {g g' : Graph α} (hgrows : g.Grows g') (h : g'.Strict) : g.Strict := by
  intro e he op hop l hl
  obtain ⟨e', he', -, hop', -⟩ := hgrows.kept e.core (mem_cores.mpr ⟨e, he, rfl⟩)
  exact h.core he' (hop'.trans hop) hl

/-! ## Events -/

namespace Event

/-- The base that got its result from a unit, if the event is the end of that unit. -/
def realizes? : Event α → Option Nat
  | .after context none => some context.output
  | _ => none

/-- The bases that got their results from units. -/
def realizedIn (events : List (Event α)) : List Nat := events.filterMap realizes?

/-- The event is the end of a unit that failed. -/
def IsFailure : Event α → Prop
  | .after _ (some _) => True
  | _ => False

/-- No unit failed. -/
def Calm (events : List (Event α)) : Prop := ∀ event ∈ events, ¬event.IsFailure

/-- After a unit has failed, nothing happens but that the units around it fail too. -/
def Halts (events : List (Event α)) : Prop :=
  events.Pairwise fun event later => event.IsFailure → later.IsFailure

@[simp] theorem realizedIn_nil : realizedIn ([] : List (Event α)) = [] := rfl

@[simp] theorem realizedIn_append (events events' : List (Event α)) :
    realizedIn (events ++ events') = realizedIn events ++ realizedIn events' :=
  List.filterMap_append

theorem Calm.nil : Calm ([] : List (Event α)) := fun _ h => absurd h List.not_mem_nil

theorem Calm.singleton {event : Event α} (h : ¬event.IsFailure) : Calm [event] := by
  intro other hother
  rwa [List.mem_singleton.mp hother]

theorem Calm.append {events events' : List (Event α)} (h : Calm events) (h' : Calm events') :
    Calm (events ++ events') :=
  List.forall_mem_append.mpr ⟨h, h'⟩

theorem Calm.halts_append {events events' : List (Event α)} (h : Calm events) (h' : Halts events') :
    Halts (events ++ events') := by
  refine List.pairwise_append.mpr ⟨?_, h', fun event hevent later _ hfails => ?_⟩
  · exact List.pairwise_of_forall_mem_list fun event hevent _ _ hfails => absurd hfails (h event hevent)
  · exact absurd hfails (h event hevent)

theorem Calm.halts {events : List (Event α)} (h : Calm events) : Halts events := by
  simpa using h.halts_append (.nil : Halts [])

/-- The failure of a unit may follow a failure inside it. -/
theorem Halts.failure {events : List (Event α)} (h : Halts events) (context : UnitRecord)
    (cause : Error) : Halts (events ++ [.after context (some cause)]) := by
  refine List.pairwise_append.mpr ⟨h, List.pairwise_singleton _ _, fun event _ later hlater _ => ?_⟩
  obtain rfl := List.mem_singleton.mp hlater
  trivial

end Event

/-- The base with the number has an operation. -/
def Graph.Computes (g : Graph α) (id : Nat) : Prop := ∃ e ∈ g.entries, e.base.id = id ∧ e.op ≠ none

/-- The event comes at its time, with results from units for the bases `done`: a unit begins and ends
while its base has none, and a loader is called when its sources have theirs. -/
def Event.Timely (g : Graph α) (done : List Nat) : Event α → Prop
  | .before context _ => context.output ∉ done ∧ g.Computes context.output
  | .after context _ => context.output ∉ done ∧ g.Computes context.output
  | .request _ _ (.call _ sources) => ∀ b ∈ sources,
      ∃ e ∈ g.entries, e.base.id = b.base.id ∧ (e.op = none ∨ b.base.id ∈ done)
  | .request _ _ (.query _) => True

theorem Graph.computes_iff {g : Graph α} {id : Nat} :
    g.Computes id ↔ ∃ e ∈ g.cores, e.base.id = id ∧ e.op ≠ none := by
  constructor
  · rintro ⟨e, he, hid, hop⟩
    exact ⟨e.core, mem_cores.mpr ⟨e, he, rfl⟩, hid, hop⟩
  · rintro ⟨c, hc, hid, hop⟩
    obtain ⟨e, he, rfl⟩ := mem_cores.mp hc
    exact ⟨e, he, hid, hop⟩

theorem Graph.Computes.of_grows {g g' : Graph α} {id : Nat} (h : g.Computes id)
    (hgrows : g.Grows g') : g'.Computes id := by
  obtain ⟨e, he, hid, hop⟩ := computes_iff.mp h
  obtain ⟨e', he', hbase, hop', -⟩ := hgrows.kept e he
  exact computes_iff.mpr ⟨e', he', hbase ▸ hid, hop' ▸ hop⟩

theorem Event.Timely.of_grows {g g' : Graph α} {done : List Nat} {event : Event α}
    (h : event.Timely g done) (hgrows : g.Grows g') : event.Timely g' done := by
  cases event with
  | before => exact ⟨h.1, h.2.of_grows hgrows⟩
  | after => exact ⟨h.1, h.2.of_grows hgrows⟩
  | request device counted request =>
    cases request with
    | query => trivial
    | call output sources =>
      intro b hb
      obtain ⟨e, he, hid, hdone⟩ := h b hb
      obtain ⟨e', he', hbase, hop, -⟩ := hgrows.kept e.core (mem_cores.mpr ⟨e, he, rfl⟩)
      obtain ⟨f, hf, rfl⟩ := mem_cores.mp he'
      exact ⟨f, hf, (congrArg Base.id hbase).trans hid, hdone.imp_left fun h => hop.trans h⟩

/-! ## Engines -/

namespace Engine

/-- The graph is well-formed, and the journal agrees with it. -/
structure Orderly (W : Census) (e : Engine α) : Prop where
  /-- The graph is well-formed, with the buffers of a census. -/
  wellFormed : e.graph.WellFormed W
  /-- A base has a result if it has no operation, or else from a unit. -/
  results : ∀ c ∈ e.graph.cores,
    c.result ≠ none ↔ c.op = none ∨ c.base.id ∈ Event.realizedIn e.journal
  /-- Every event came at its time. -/
  timely : ∀ earlier event later, e.journal = earlier ++ event :: later →
    event.Timely e.graph (Event.realizedIn earlier)
  /-- The arguments of every request fit together. -/
  aligned : ∀ earlier event later, e.journal = earlier ++ event :: later →
    event.Aligned e.graph earlier
  /-- The request of a kernel is that of its schedule unless a slot was folded since. -/
  traced : ∀ earlier event later, e.journal = earlier ++ event :: later →
    event.Traced e.graph earlier

/-- From one orderly state an engine has gone on to another, with events that are `allowed` if no
loader swallows errors. Bases with a number in `fixed` that had no result still have none. -/
structure Advances (fixed : Nat → Prop) (allowed : List (Event α) → Prop) (W : Census)
    (e : Engine α) (W' : Census) (e' : Engine α) : Prop where
  /-- The graph has grown. -/
  graph : Leads W e.graph W' e'.graph
  /-- The later state is orderly. -/
  orderly : Orderly W' e'
  /-- Some bases still wait for their results. -/
  waits : ∀ c ∈ e.graph.cores, fixed c.base.id → c.result = none →
    ∃ c' ∈ e'.graph.cores, c'.base = c.base ∧ c'.result = none
  /-- Events were added to the journal. -/
  journal : ∃ news, e'.journal = e.journal ++ news ∧ (e'.graph.Strict → allowed news)

variable {fixed fixed' : Nat → Prop} {allowed allowed' : List (Event α) → Prop}
  {W W' W'' : Census} {e e' e'' : Engine α} {g' : Graph α} {b : Buffer}

theorem Advances.trans {first second : List (Event α) → Prop} (h : Advances fixed first W e W' e')
    (h' : Advances fixed second W' e' W'' e'')
    (happend : ∀ news news', first news → second news' → allowed (news ++ news')) :
    Advances fixed allowed W e W'' e'' where
  graph := h.graph.trans h'.graph
  orderly := h'.orderly
  waits c hc hfixed hresult := by
    obtain ⟨c', hc', hbase, hresult'⟩ := h.waits c hc hfixed hresult
    obtain ⟨c'', hc'', hbase', hresult''⟩ := h'.waits c' hc' (hbase ▸ hfixed) hresult'
    exact ⟨c'', hc'', hbase'.trans hbase, hresult''⟩
  journal := by
    obtain ⟨news, hnews, hallowed⟩ := h.journal
    obtain ⟨news', hnews', hallowed'⟩ := h'.journal
    refine ⟨news ++ news', by rw [hnews', hnews, List.append_assoc], fun hstrict => ?_⟩
    exact happend _ _ (hallowed (hstrict.of_grows h'.graph.grows)) (hallowed' hstrict)

theorem Advances.imp (h : Advances fixed allowed W e W' e') (hfixed : ∀ id, fixed' id → fixed id)
    (himp : e'.graph.Strict → ∀ news, allowed news → allowed' news) :
    Advances fixed' allowed' W e W' e' := by
  refine ⟨h.graph, h.orderly, fun c hc hid => h.waits c hc (hfixed _ hid), ?_⟩
  obtain ⟨news, hnews, hallowed⟩ := h.journal
  exact ⟨news, hnews, fun hstrict => himp hstrict _ (hallowed hstrict)⟩

theorem Advances.halts (h : Advances fixed Event.Calm W e W' e') :
    Advances fixed Event.Halts W e W' e' :=
  h.imp (fun _ => id) fun _ _ => Event.Calm.halts

/-- What is known about an engine: it is orderly. As long as no loader swallows errors, no unit fails
in a computation that succeeds, and nothing follows a failure but the failures that it causes. -/
def orderly (fixed : Nat → Prop) : World Census (Engine α) where
  Sound := Orderly
  Leads := Advances fixed Event.Calm
  refl h := ⟨h.wellFormed.viewed.leads, h, fun c hc _ hresult => ⟨c, hc, rfl, hresult⟩, [], by simp,
    fun _ => .nil⟩
  trans h h' := h.trans h' fun _ _ => Event.Calm.append
  Fails := Advances fixed Event.Halts
  fails := Advances.halts
  trans_fails h h' := h.trans h' fun _ _ => Event.Calm.halts_append
  sound_fails h := h.orderly

/-- The base of every event that tells of a result has a number. -/
theorem Orderly.computes (h : Orderly W e) {id : Nat} (hid : id ∈ Event.realizedIn e.journal) :
    e.graph.Computes id := by
  obtain ⟨event, hevent, hrealizes⟩ := List.mem_filterMap.mp hid
  obtain ⟨earlier, later, hjournal⟩ := List.append_of_mem hevent
  have htimely := h.timely earlier event later hjournal
  cases event with
  | after context failure =>
    cases failure with
    | none => exact Option.some.inj hrealizes ▸ htimely.2
    | some => cases hrealizes
  | _ => cases hrealizes

theorem Orderly.lt_next (h : Orderly W e) {id : Nat} (hid : id ∈ Event.realizedIn e.journal) :
    id < e.graph.next := by
  obtain ⟨c, hc, rfl, -⟩ := computes_iff.mp (h.computes hid)
  exact h.wellFormed.lt_next (h.wellFormed.base_listed c hc)

/-- The base of a buffer, with what the graph knows of it. -/
theorem Orderly.core (h : Orderly W e) (hb : W.Lists b) : ∃ c ∈ e.graph.cores, c.base = b.base
    ∧ e.graph.op? b = c.op ∧ e.graph.result? b = c.result := by
  obtain ⟨c, hc, hbase⟩ := h.wellFormed.census_base _ _ hb
  exact ⟨c, hc, hbase, h.wellFormed.op?_eq hc hbase, h.wellFormed.result?_eq hc hbase⟩

/-- A base with an operation has a result exactly if a unit for it has succeeded. -/
theorem Orderly.isRealized_iff (h : Orderly W e) (hb : W.Lists b) (hop : e.graph.op? b ≠ none) :
    e.graph.isRealized b = true ↔ b.base.id ∈ Event.realizedIn e.journal := by
  obtain ⟨c, hc, hbase, hop', hresult⟩ := h.core hb
  have hresults := h.results c hc
  rw [hop'] at hop
  rw [isRealized, hresult, Option.isSome_iff_ne_none, hresults, hbase]
  exact or_iff_right hop

/-- A unit for a base that waits may begin or end. -/
theorem Orderly.waiting (h : Orderly W e) (hb : W.Lists b) (hop : e.graph.op? b ≠ none)
    (hwaits : e.graph.isRealized b = false) :
    b.base.id ∉ Event.realizedIn e.journal ∧ e.graph.Computes b.base.id := by
  constructor
  · rw [← h.isRealized_iff hb hop, hwaits]
    exact Bool.false_ne_true
  · obtain ⟨c, hc, hbase, hop', -⟩ := h.core hb
    exact computes_iff.mpr ⟨c, hc, congrArg Base.id hbase, hop' ▸ hop⟩

/-- A base that waits, and may not get a result meanwhile, still waits. -/
theorem Advances.isRealized_eq (h : Advances fixed allowed W e W' e') (hg : e.graph.WellFormed W)
    (hb : W.Lists b) (hfixed : fixed b.base.id) (hwaits : e.graph.isRealized b = false) :
    e'.graph.isRealized b = false := by
  obtain ⟨c, hc, hbase⟩ := hg.census_base _ _ hb
  rw [isRealized, hg.result?_eq hc hbase] at hwaits
  obtain ⟨c', hc', hbase', hresult⟩ := h.waits c hc (hbase ▸ hfixed) (by simpa using hwaits)
  rw [isRealized, h.graph.wellFormed.result?_eq hc' (hbase'.trans hbase), hresult]
  rfl

/-! ## Ways to go on -/

/-- What follows an event in a journal with new entries: it is an old entry, or a new one. -/
theorem entry_append {β : Type} {journal news earlier later : List β} {event : β}
    (h : journal ++ news = earlier ++ event :: later) :
    (∃ rest, journal = earlier ++ event :: rest)
      ∨ ∃ before, earlier = journal ++ before ∧ news = before ++ event :: later := by
  rcases List.append_eq_append_iff.mp h with ⟨middle, rfl, hnews⟩ | ⟨middle, hold, hrest⟩
  · exact .inr ⟨middle, rfl, hnews⟩
  · cases middle with
    | nil => exact .inr ⟨[], by simpa using hold.symm, by simpa using hrest.symm⟩
    | cons event' middle =>
      obtain ⟨rfl, -⟩ := List.cons.inj hrest
      exact .inl ⟨middle, hold⟩

/-- An engine stays orderly if its results and the new events agree. -/
theorem Orderly.next (h : Orderly W e) (hgraph : Leads W e.graph W' e'.graph)
    (news : List (Event α)) (hjournal : e'.journal = e.journal ++ news)
    (hresults : ∀ c ∈ e'.graph.cores,
      c.result ≠ none ↔ c.op = none ∨ c.base.id ∈ Event.realizedIn e'.journal)
    (hnews : ∀ earlier event later, news = earlier ++ event :: later →
      event.Timely e'.graph (Event.realizedIn (e.journal ++ earlier))
        ∧ event.Aligned e'.graph (e.journal ++ earlier)
        ∧ event.Traced e'.graph (e.journal ++ earlier)) : Orderly W' e' where
  wellFormed := hgraph.wellFormed
  results := hresults
  timely earlier event later heq := by
    rcases entry_append (hjournal ▸ heq) with ⟨rest, hold⟩ | ⟨before, rfl, hnew⟩
    · exact (h.timely earlier event rest hold).of_grows hgraph.grows
    · exact (hnews before event later hnew).1
  aligned earlier event later heq := by
    rcases entry_append (hjournal ▸ heq) with ⟨rest, hold⟩ | ⟨before, rfl, hnew⟩
    · exact (h.aligned earlier event rest hold).of_grows hgraph.grows hgraph.wellFormed
    · exact (hnews before event later hnew).2.1
  traced earlier event later heq := by
    rcases entry_append (hjournal ▸ heq) with ⟨rest, hold⟩ | ⟨before, rfl, hnew⟩
    · exact (h.traced earlier event rest hold).of_grows hgraph.grows hgraph.wellFormed
    · exact (hnews before event later hnew).2.2

/-- The only event of a list with one. -/
theorem entry_singleton {β : Type} {earlier later : List β} {event new : β}
    (h : [new] = earlier ++ event :: later) : earlier = [] ∧ event = new := by
  cases earlier with
  | nil => exact ⟨rfl, (List.cons.inj h).1.symm⟩
  | cons => simp at h

/-- Building adds bases without results and no events. -/
theorem Orderly.built (h : Orderly W e) (hbuilt : Built W e.graph W' g') :
    Advances fixed Event.Calm W e W' { e with graph := g' } := by
  obtain ⟨news, hcores, hnews⟩ := hbuilt.news
  refine ⟨hbuilt.toLeads, h.next hbuilt.toLeads [] (by simp) ?_ (by simp), ?_, [], by simp,
    fun _ => .nil⟩
  · intro c hc
    change c ∈ g'.cores at hc
    rw [hcores] at hc
    rcases List.mem_append.mp hc with hc | hc
    · obtain ⟨hop, hresult, hid⟩ := hnews c hc
      refine iff_of_false (fun h => h hresult) ?_
      rintro (hnone | hdone)
      · exact hop hnone
      · exact absurd (h.lt_next hdone) (by omega)
    · exact h.results c hc
  · intro c hc _ hresult
    exact ⟨c, by change c ∈ g'.cores; rw [hcores]; exact List.mem_append_right _ hc, rfl, hresult⟩

/-- A base without an operation is added with its result. -/
theorem Orderly.uploaded (h : Orderly W e) (block : Block α) (shape : Shape) (dtype : DType)
    (device : String) (config : Config) :
    Advances fixed Event.Calm W e (W.add (e.graph.nextBase shape dtype device config).buffer)
      { e with graph := (e.graph.insert none (some block) shape dtype device config).2 } := by
  have hleads : Leads W e.graph (W.add (e.graph.nextBase shape dtype device config).buffer)
      (e.graph.insert none (some block) shape dtype device config).2 :=
    ⟨h.wellFormed.insert nofun, h.wellFormed.grows_add rfl, grows_insert ..⟩
  have hcores := cores_insert e.graph none (some block) shape dtype device config
  refine ⟨hleads, h.next hleads [] (by simp) ?_ (by simp), ?_, [], by simp, fun _ => .nil⟩
  · intro c hc
    change c ∈ (e.graph.insert none (some block) shape dtype device config).2.cores at hc
    rw [hcores] at hc
    rcases List.mem_cons.mp hc with rfl | hc
    · exact iff_of_true nofun (.inl rfl)
    · exact h.results c hc
  · intro c hc _ hresult
    exact ⟨c, by rw [hcores]; exact List.mem_cons_of_mem _ hc, rfl, hresult⟩

/-- An event that tells of no result is added. -/
theorem Orderly.record (h : Orderly W e) {event : Event α} (hrealizes : event.realizes? = none)
    (htimely : event.Timely e.graph (Event.realizedIn e.journal))
    (haligned : event.Aligned e.graph e.journal) (htraced : event.Traced e.graph e.journal)
    (hallowed : e.graph.Strict → allowed [event]) :
    Advances fixed allowed W e W (e.record event) := by
  have hleads : Leads W e.graph W (e.record event).graph := h.wellFormed.viewed.leads
  refine ⟨hleads, h.next hleads [event] rfl ?_ ?_,
    fun c hc _ hresult => ⟨c, hc, rfl, hresult⟩, [event], rfl, hallowed⟩
  · intro c hc
    have hsame : Event.realizedIn (e.record event).journal = Event.realizedIn e.journal := by
      simp [Engine.record, Event.realizedIn, hrealizes]
    rw [hsame]
    exact h.results c hc
  · intro earlier event' later heq
    obtain ⟨rfl, rfl⟩ := entry_singleton heq
    rw [List.append_nil]
    exact ⟨htimely, haligned, htraced⟩

/-- The number of units that have begun is not part of what is known. -/
theorem Orderly.counted (h : Orderly W e) (units : Nat) :
    Advances fixed Event.Calm W e W { e with units := units } := by
  have hleads : Leads W e.graph W e.graph := h.wellFormed.viewed.leads
  exact ⟨hleads, ⟨h.wellFormed, h.results, h.timely, h.aligned, h.traced⟩,
    fun c hc _ hresult => ⟨c, hc, rfl, hresult⟩, [], by simp, fun _ => .nil⟩

/-- The calls of loaders are counted. -/
theorem Orderly.countCall (h : Orderly W e) (id : Nat) :
    Advances fixed Event.Calm W e W { e with graph := e.graph.countCall id } := by
  have hleads : Leads W e.graph W (e.graph.countCall id) :=
    ⟨h.wellFormed.countCall id, .refl W, grows_countCall _ _⟩
  have hcores := cores_countCall e.graph id
  refine ⟨hleads, h.next hleads [] (by simp) ?_ (by simp), ?_, [], by simp, fun _ => .nil⟩
  · intro c hc
    change c ∈ (e.graph.countCall id).cores at hc
    rw [hcores] at hc
    obtain ⟨d, hd, rfl⟩ := List.mem_map.mp hc
    have hresults := h.results d hd
    split <;> exact hresults
  · intro c hc _ hresult
    refine ⟨_, by rw [hcores]; exact List.mem_map_of_mem hc, ?_, ?_⟩ <;> split <;>
      first | rfl | exact hresult

/-- A unit succeeds, and its base gets its result. -/
theorem Orderly.finished (h : Orderly W e) (hb : W.Lists b) (hop : e.graph.op? b ≠ none)
    (hwaits : e.graph.isRealized b = false) (hfixed : ¬fixed b.base.id) {context : UnitRecord}
    (hcontext : context.output = b.base.id)
    (hends : context.load = none → context.Ends e.journal none) (block : Block α) :
    Advances fixed Event.Calm W e W
      { e.record (.after context none) with graph := e.graph.setResult b.base.id block } := by
  have hleads : Leads W e.graph W (e.graph.setResult b.base.id block) :=
    ⟨h.wellFormed.setResult _ block, .refl W, h.wellFormed.grows_setResult hwaits block⟩
  have hcores := cores_setResult e.graph b.base.id block
  obtain ⟨hdone, hcomputes⟩ := h.waiting hb hop hwaits
  constructor
  case graph => exact hleads
  case orderly =>
    refine h.next hleads [.after context none] rfl ?_ ?_
    · intro c hc
      change c ∈ (e.graph.setResult b.base.id block).cores at hc
      rw [hcores] at hc
      obtain ⟨d, hd, rfl⟩ := List.mem_map.mp hc
      have hresults := h.results d hd
      simp only [Engine.record, Event.realizedIn_append, List.mem_append]
      have hnew : Event.realizedIn [(.after context none : Event α)] = [b.base.id] := by
        rw [← hcontext]
        rfl
      rw [hnew, List.mem_singleton]
      -- the base of the unit has a result now, and no other has got one
      split
      · next hid => exact iff_of_true (Option.some_ne_none block) (.inr (.inr hid))
      · next hid =>
        rw [hresults]
        simp [hid]
    · intro earlier event later heq
      obtain ⟨rfl, rfl⟩ := entry_singleton heq
      rw [List.append_nil]
      exact ⟨⟨hcontext ▸ hdone, hcontext ▸ hcomputes.of_grows hleads.grows⟩, hends, trivial⟩
  case waits =>
    intro c hc hid hresult
    refine ⟨c, ?_, rfl, hresult⟩
    rw [hcores]
    exact List.mem_map.mpr ⟨c, hc, if_neg fun heq : c.base.id = b.base.id => hfixed (heq ▸ hid)⟩
  case journal => exact ⟨_, rfl, fun _ => .singleton id⟩

/-- A unit fails, and its base still waits. -/
theorem Orderly.failed (h : Orderly W e) (hb : W.Lists b) (hop : e.graph.op? b ≠ none)
    (hwaits : e.graph.isRealized b = false) {context : UnitRecord}
    (hcontext : context.output = b.base.id) {cause : Error}
    (hends : context.load = none → context.Ends e.journal (some cause)) :
    Advances fixed (fun news => news = [.after context (some cause)]) W e W
      (e.record (.after context (some cause))) := by
  obtain ⟨hdone, hcomputes⟩ := h.waiting hb hop hwaits
  exact h.record rfl ⟨hcontext ▸ hdone, hcontext ▸ hcomputes⟩ hends trivial fun _ => rfl

end Engine

end TensorGraph
