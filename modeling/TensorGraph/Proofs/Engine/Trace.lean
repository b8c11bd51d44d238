import TensorGraph.Proofs.Engine.Course
import TensorGraph.Proofs.Engine.Realize
/-!
# Realizing takes its course

Whatever the backends and the loaders answer, and however realizations nest: unless there is a panic, or
arithmetic leaves the words, a computation of the engine is a course, which is failing in the end
exactly if the computation fails.

- `Run.Tells`: computations that take their course.
- `Run.Silent`: computations that the trace does not tell of.
- `Run.tells_runUnit`: one unit.
- `Run.tells_realizeUpTo`: realizing, whatever the depth.
-/

namespace TensorGraph

open TensorGraph.Graph TensorGraph.Engine World

variable {α : Type} {W : Census} {e : Engine α} {b : Buffer} {item : Item α}

namespace Run

variable {β γ : Type}

/-- The trace does not tell of the computation `x`, started in the state `e`. -/
def Silent (e : Engine α) (x : Run α β) : Prop :=
  Sat x e (fun _ e' => e'.trace = e.trace ∧ e'.units = e.units)
    fun _ e' => e'.trace = e.trace ∧ e'.units = e.units

theorem silent_ofExcept (e : Engine α) (r : Except Error β) : Silent e (ofExcept r) := by
  cases r <;> exact ⟨rfl, rfl⟩

theorem silent_build (e : Engine α) (x : Build α β) : Silent e (build x) := by
  refine sat_build.mpr ?_
  rw [Sat]
  rcases x.run e.graph with ⟨cause | b, g⟩ <;> exact ⟨rfl, rfl⟩

theorem silent_knownDims (e : Engine α) (b : Buffer) (task : String) :
    Silent e (knownDims b task) := by
  rw [knownDims]
  split <;> exact ⟨rfl, rfl⟩

theorem silent_ask (e : Engine α) (b : Backend α) (device : String) (query : Query α) :
    Silent e (b.ask device query) := by
  have hsame : (e.record (.request device b.counted (.query query))).trace = e.trace :=
    (trace_record ..).trans (List.append_nil _)
  rw [Silent, Backend.ask, sat_bind]
  dsimp only
  split <;> exact ⟨hsame, rfl⟩

/-- What comes of a computation that ends with a value or an error. -/
theorem run_attempt {r : Run α β} {e e' : Engine α} {result : Except Error β}
    (h : r.run e = (result.mapError .error, e')) : (attempt r).run e = (.ok result, e') := by
  change r e = _ at h
  simp only [attempt, ExceptT.run, h]
  cases result <;> rfl

variable [Lane α] {devices : Registry α} {around : Option (Frame α)}
  {post mid : β → Engine α → Prop}

/-- The computation `x`, started in the state `e` while the unit `around`, or none, is at work, takes
its course unless nothing handles its failure, and satisfies `post` if it succeeds. -/
def Tells (devices : Registry α) (around : Option (Frame α)) (e : Engine α) (x : Run α β)
    (post : β → Engine α → Prop) : Prop :=
  Sat x e (fun b e' => (∃ events, Course devices around e e' events false) ∧ post b e')
    fun failure e' => ∀ cause, failure = .error cause →
      ∃ events, Course devices around e e' events true

theorem tells_pure {b : β} (h : post b e) : Tells devices around e (pure b) post :=
  ⟨⟨[], .refl⟩, h⟩

theorem tells_fail (cause : Error) : Tells devices around e (fail cause : Run α β) post :=
  fun _ _ => ⟨[], .refuse .refl⟩

theorem tells_panic (text : String) : Tells devices around e (throw (.panic text) : Run α β) post :=
  nofun

theorem Tells.imp {x : Run α β} (h : Tells devices around e x mid)
    (himp : ∀ b e', mid b e' → post b e') : Tells devices around e x post :=
  Sat.imp h (fun b e' h => ⟨h.1, himp b e' h.2⟩) fun _ _ h => h

/-- A computation goes on where a course has got to. -/
theorem Tells.after {x : Run α β} {e' : Engine α} {events : List (Event α)}
    (hcourse : Course devices around e e' events false) (h : Tells devices around e' x post) :
    Sat x e' (fun b e'' => (∃ events, Course devices around e e'' events false) ∧ post b e'')
      fun failure e'' => ∀ cause, failure = .error cause →
        ∃ events, Course devices around e e'' events true := by
  refine Sat.imp h ?_ ?_
  · rintro b e'' ⟨⟨events', hcourse'⟩, hpost⟩
    exact ⟨⟨_, hcourse.trans hcourse'⟩, hpost⟩
  · rintro failure e'' hfails cause hcause
    obtain ⟨events', hcourse'⟩ := hfails cause hcause
    exact ⟨_, hcourse.trans hcourse'⟩

/-- A computation that succeeds may be followed by another. -/
theorem Tells.bind {x : Run α γ} {f : γ → Run α β} {mid : γ → Engine α → Prop}
    (hx : Tells devices around e x mid)
    (hf : ∀ c e', mid c e' → Tells devices around e' (f c) post) :
    Tells devices around e (x >>= f) post := by
  rw [Tells, sat_bind]
  refine Sat.imp hx ?_ fun _ _ h => h
  rintro c e' ⟨⟨events, hcourse⟩, hmid⟩
  exact (hf c e' hmid).after hcourse

/-- What is known of the engine is kept on its course. -/
theorem Tells.and_keeps {x : Run α β} {fixed : Nat → Prop} {known : β → Census → Engine α → Prop}
    (h : Tells devices around e x mid) (hkeeps : Keeps fixed W e x known) :
    Tells devices around e x
      fun b e' => ∃ W', Advances fixed Event.Calm W e W' e' ∧ known b W' e' :=
  Sat.imp (Sat.and h hkeeps) (fun _ _ h => ⟨h.1.1, h.2⟩) fun _ _ h => h.1

/-- A computation that is silent and lets the graph grow takes its course. -/
theorem Silent.tells {x : Run α β} {fixed : Nat → Prop} {known : β → Census → Engine α → Prop}
    (h : Silent e x) (hkeeps : Keeps fixed W e x known) :
    Tells devices around e x
      fun b e' => ∃ W', Advances fixed Event.Calm W e W' e' ∧ known b W' e' := by
  refine Sat.imp (Sat.and h hkeeps) ?_ ?_
  · rintro b e' ⟨⟨htrace, hunits⟩, W', hadvances, hknown⟩
    refine ⟨⟨[], .quiet .refl ⟨?_, hunits, (Advances.graph hadvances).grows⟩⟩, W', hadvances, hknown⟩
    rw [htrace, List.append_nil]
  · rintro failure e' ⟨⟨htrace, hunits⟩, -, W', hfails⟩ cause -
    refine ⟨[], .refuse (.quiet .refl ⟨?_, hunits, (Advances.graph hfails).grows⟩)⟩
    rw [htrace, List.append_nil]

/-! ## Loads -/

/-- Buffers are realized in courses, inside copies and custom loads. -/
def TellsUpTo (devices : Registry α) (depth : Nat) : Prop :=
  ∀ {W : Census} {e : Engine α} {around : Option (Frame α)} {b : Buffer}, Orderly W e → W.Lists b →
    (∀ frame ∈ around, frame.Nests) → ∀ held,
    Tells devices around e (realizeUpTo devices depth held b) fun _ _ => True

/-- No base is known to wait. -/
abbrev KeepsAny (W : Census) (e : Engine α) (x : Run α β)
    (known : β → Census → Engine α → Prop) : Prop :=
  Keeps (fun _ => False) W e x known

variable {depth : Nat} {frame : Frame α}

theorem keepsAny_realizeUpTo (devices : Registry α) (depth : Nat) (h : Orderly W e)
    (hb : W.Lists b) (held : List Buffer) :
    KeepsAny W e (realizeUpTo devices depth held b)
      fun _ _ e' => e'.graph.isRealized b = true :=
  realizesBelow_realizeUpTo devices depth h hb (.base (Nat.lt_succ_self _)) nofun held

theorem keepsAny_readBack (devices : Registry α) (depth : Nat) (h : Orderly W e)
    (hb : W.Lists b) (held : List Buffer) :
    KeepsAny W e (readBack (realizeUpTo devices depth) held b) fun _ _ _ => True :=
  keeps_readBack (realizesBelow_realizeUpTo devices depth) h hb (Nat.lt_succ_self _) nofun held

theorem tells_readBack (hdepth : TellsUpTo devices depth) (h : Orderly W e) (hb : W.Lists b)
    (hnests : ∀ frame ∈ around, frame.Nests) (held : List Buffer) :
    Tells devices around e (readBack (realizeUpTo devices depth) held b) fun _ _ => True := by
  have hdims : KeepsAny W e (knownDims b "reading back") fun _ W' e' => W' = W ∧ e' = e :=
    keeps_knownDims h b _
  refine ((silent_knownDims e b _).tells hdims).bind ?_
  rintro dims e ⟨W, -, rfl, rfl⟩
  have hcopy : KeepsAny W e (build b.contiguous) _ := keeps_contiguous h hb
  refine ((silent_build e _).tells hcopy).bind ?_
  rintro dense e₁ ⟨W₁, hadvances₁, hdense, -⟩
  have h₁ := hadvances₁.orderly
  have hrealize := keepsAny_realizeUpTo devices depth h₁ hdense (b :: held)
  refine ((hdepth h₁ hdense hnests _).and_keeps hrealize).bind ?_
  rintro block e₂ ⟨W₂, hadvances₂, -⟩
  have hvalue : KeepsAny W₂ e₂ (ofExcept (block.toArray dims)) _ := keeps_value hadvances₂.orderly _
  exact ((silent_ofExcept e₂ _).tells hvalue).imp fun _ _ _ => trivial

/-- A loader reads sources back until it ends, or refuses after an error, or goes on after one. -/
theorem tells_follow (hdepth : TellsUpTo devices depth) (held : List Buffer) {loader : Loader α}
    {output : Buffer} (hload : frame.context.load = some .custom)
    (hloader : frame.tree.arg = .loader loader) (houtput : output.id = frame.context.output)
    (h : Orderly W e) (hsources : ∀ b ∈ frame.sources, W.Lists b)
    (script : Script α frame.sources.length)
    (hreads : frame.Reads (realizeUpTo devices depth) held loader output script e) :
    Tells devices (some frame) e (follow (realizeUpTo devices depth) held frame.sources script)
      fun _ _ => True := by
  have hnests : ∀ inner ∈ some frame, inner.Nests := by
    rintro _ ⟨⟩
    exact .inr hload
  induction script generalizing W e with
  | finish block => exact tells_pure trivial
  | fail cause => exact tells_fail cause
  | panic text => exact tells_panic text
  | read source next ih =>
    have hlist := hsources _ (List.getElem_mem source.isLt)
    have hkeeps := keepsAny_readBack devices depth h hlist held
    rw [follow]
    refine sat_bind.mpr (sat_attempt.mpr ?_)
    have htells := tells_readBack hdepth h hlist hnests held
    refine Sat.imp ((sat_run _ e).and (Sat.and htells hkeeps)) ?_ ?_
    · rintro array e' ⟨hrun, ⟨⟨events, hcourse⟩, -⟩, W', hadvances, -⟩
      have hnext := ih (.ok array) (Advances.orderly hadvances)
        (fun b hb => (Advances.graph hadvances).census.lists (hsources b hb))
        (hreads.read (run_attempt hrun))
      exact hnext.after hcourse
    · rintro failure e' ⟨hrun, hfails, -, W', hadvances⟩
      refine ⟨?_, fun hunhandled cause hcause => absurd hcause (hunhandled cause)⟩
      rintro cause rfl
      obtain ⟨events, hcourse⟩ := hfails cause rfl
      -- the loader has got the error: if it refuses, the unit fails too, with nothing in between
      by_cases hrefuses : (next (.error cause)).Refuses
      · generalize next (.error cause) = rest at hrefuses
        cases hrefuses with
        | fail => exact fun _ _ => ⟨events, hcourse⟩
        | panic => rintro _ ⟨⟩
      · have hswallows : frame.Swallows devices e' :=
          ⟨hload, depth, held, loader, output, source, next, cause, e, hloader, houtput, hreads, hrun,
            hrefuses⟩
        have hnext := ih (.error cause) (Advances.orderly hadvances)
          (fun b hb => (Advances.graph hadvances).census.lists (hsources b hb))
          (hreads.read (run_attempt hrun))
        exact hnext.after (hcourse.swallow hswallows)

/-- The sources of a custom load are realized one after the other. -/
theorem tells_realizeAll (hdepth : TellsUpTo devices depth) (h : Orderly W e)
    (hnests : ∀ frame ∈ around, frame.Nests) (held : List Buffer) {sources : List Buffer}
    (hsources : ∀ b ∈ sources, W.Lists b) :
    Tells devices around e
      (sources.forM fun source => do let _ ← realizeUpTo devices depth held source)
      fun _ _ => True := by
  induction sources generalizing W e with
  | nil => exact tells_pure trivial
  | cons source sources ih =>
    obtain ⟨hlist, hsources⟩ := List.forall_mem_cons.mp hsources
    have hkeeps := keepsAny_realizeUpTo devices depth h hlist held
    have hfirst : Tells devices around e (do let _ ← realizeUpTo devices depth held source)
        fun _ e' => ∃ W', Leads W e.graph W' e'.graph ∧ Orderly W' e' := by
      refine ((hdepth h hlist hnests held).and_keeps hkeeps).bind ?_
      rintro _ e' ⟨W', hadvances, -⟩
      exact tells_pure ⟨W', hadvances.graph, hadvances.orderly⟩
    refine hfirst.bind ?_
    rintro _ e' ⟨W', hleads, h'⟩
    exact ih h' fun b hb => hleads.census.lists (hsources b hb)

theorem tells_callLoader (hdepth : TellsUpTo devices depth) (held : List Buffer) {loader : Loader α}
    {output : Buffer} (hload : frame.context.load = some .custom)
    (hloader : frame.tree.arg = .loader loader) (houtput : output.id = frame.context.output)
    (hbegun : .before frame.context frame.tree ∈ e.journal) (h : Orderly W e)
    (hsources : ∀ b ∈ frame.sources, W.Lists b) :
    Tells devices (some frame) e
      (callLoader (realizeUpTo devices depth) held output loader frame.sources) fun _ _ => True := by
  have hnests : ∀ inner ∈ some frame, inner.Nests := by
    rintro _ ⟨⟩
    exact .inr hload
  have hbelow : ∀ b ∈ frame.sources, W.Lists b ∧ b.base.id < e.graph.next := fun b hb =>
    ⟨hsources b hb, h.wellFormed.lt_next (h.wellFormed.lists_base (hsources b hb))⟩
  have hkeeps : KeepsAny W e _ _ :=
    keeps_realizeAll (realizesBelow_realizeUpTo devices depth) h held hbelow nofun
  rw [callLoader]
  refine ((tells_realizeAll hdepth h hnests held hsources).and_keeps hkeeps).bind ?_
  rintro _ e₁ ⟨W₁, hadvances₁, hdone⟩
  have hbegun₁ : .before frame.context frame.tree ∈ e₁.journal := by
    obtain ⟨news, hjournal, -⟩ := hadvances₁.journal
    exact hjournal ▸ List.mem_append_left _ hbegun
  -- the loader is called once all its sources have results
  have hcounted : Advances (fun _ => False) Event.Calm W₁ e₁ W₁
      { e₁ with graph := e₁.graph.countCall output.base.id } := hadvances₁.orderly.countCall _
  have hcalled : KeepsAny W₁ _
      (record (.request output.device false (.call output frame.sources))) _ :=
    keeps_recordCall hcounted.orderly output frame.sources fun b hb =>
      have hlist := hadvances₁.graph.census.lists (hsources b hb)
      ⟨hlist, hcounted.graph.isRealized hadvances₁.orderly.wellFormed hlist (hdone b hb)⟩
  obtain ⟨W₂, hadvances₂, rfl, -⟩ := hcalled
  have hquiet : e₁.Continues [] ({ e₁ with graph := e₁.graph.countCall output.base.id }.record
      (.request output.device false (.call output frame.sources))) :=
    ⟨trace_record _ _, rfl, (hcounted.graph.trans (Advances.graph hadvances₂)).grows⟩
  have hfollow := tells_follow hdepth held hload hloader houtput (Advances.orderly hadvances₂)
    (fun b hb => hadvances₁.graph.census.lists (hsources b hb)) _ (.call hbegun₁)
  rw [Tells, sat_bind, sat_graph, sat_bind]
  change Sat (record _ >>= _) { e₁ with graph := e₁.graph.countCall output.base.id } _ _
  rw [sat_bind]
  exact hfollow.after (.quiet .refl hquiet)

theorem tells_ask (h : Orderly W e) (backend : Backend α) (device : String) {query : Query α}
    (haligned : Event.Aligned e.graph e.journal (.request device backend.counted (.query query)))
    (htraced : Event.Traced e.graph e.journal (.request device backend.counted (.query query))) :
    Tells devices around e (backend.ask device query) fun _ _ => True := by
  have hkeeps : KeepsAny W e (backend.ask device query) _ :=
    keeps_ask h backend device query haligned htraced
  exact ((silent_ask e backend device query).tells hkeeps).imp fun _ _ _ => trivial

/-- Only copies and custom loads realize other buffers. -/
theorem tells_runLoad (hdepth : TellsUpTo devices depth) (held : List Buffer) (backend : Backend α)
    {output : Buffer} {op : LoadOp} (hload : frame.context.load = some op)
    (houtput : output.id = frame.context.output)
    (hbegun : .before frame.context frame.tree ∈ e.journal) (h : Orderly W e)
    (hleaves : ∀ b ∈ frame.tree.leaves, W.Lists b) :
    Tells devices (some frame) e
      (runLoad (realizeUpTo devices depth) held backend output op frame.tree) fun _ _ => True := by
  have hdims (task : String) : Tells devices (some frame) e (knownDims output task)
      fun _ e' => Orderly W e' := by
    have hkeeps : KeepsAny W e (knownDims output task) fun _ W' e' => W' = W ∧ e' = e :=
      keeps_knownDims h output task
    refine ((silent_knownDims e output task).tells hkeeps).imp ?_
    rintro _ _ ⟨_, hadvances, rfl, rfl⟩
    exact h
  cases op with rw [runLoad.eq_def]
  | empty => exact (hdims _).bind fun dims e' h' => tells_ask h' _ _ (by trivial) (by trivial)
  | rand =>
    refine (hdims _).bind fun dims e' h' => ?_
    split
    · have hvalue (r : Except Error (HostArray α)) : KeepsAny W e' (ofExcept r) _ :=
        keeps_value h' r
      refine ((silent_ofExcept e' _).tells (hvalue _)).bind ?_
      rintro array _ ⟨_, -, -, rfl, rfl⟩
      exact tells_ask h' _ _ (by trivial) (by trivial)
    · exact tells_fail _
  | const =>
    dsimp only
    split
    · split
      · exact tells_pure trivial
      · exact tells_ask h _ _ (by trivial) (by trivial)
    · rw [Tells, sat_bind, sat_graph]
      exact tells_fail _
  | copy =>
    have hnests : ∀ inner ∈ some frame, inner.Nests := by
      rintro _ ⟨⟩
      exact .inl hload
    dsimp only
    split
    · next source hsource =>
      obtain ⟨t, ht, hbuffer⟩ := Option.bind_eq_some_iff.mp hsource
      have hlist := hleaves source (mem_leaves_of_source (List.mem_of_mem_head? ht) hbuffer)
      have hkeeps := keepsAny_readBack devices depth h hlist held
      refine ((tells_readBack hdepth h hlist hnests held).and_keeps hkeeps).bind ?_
      rintro array e' ⟨W', hadvances, -⟩
      exact tells_ask hadvances.orderly _ _ (by trivial) (by trivial)
    · exact tells_fail _
  | custom =>
    dsimp only
    split
    · next loader hloader =>
      refine tells_callLoader hdepth held hload hloader houtput hbegun h fun b hb => ?_
      obtain ⟨t, ht, hbuffer⟩ := List.mem_filterMap.mp hb
      exact hleaves b (mem_leaves_of_source ht hbuffer)
    · exact tells_fail _
  | contiguous => exact tells_fail _

/-! ## Units -/

variable {k : Nat} {context : UnitRecord}

/-- What happens inside a unit. -/
theorem tells_execute (hdepth : TellsUpTo devices depth) (h : Orderly W e)
    (hdue : item.Due W e.graph k) (hsupplied : item.Supplied e.graph)
    (hbegins : item.Begins context e.journal) (held : List Buffer) :
    Tells devices (some ⟨context, item.tree⟩) e
      (execute devices (realizeUpTo devices depth) held item) fun _ _ => True := by
  cases hload : item.load? with
  | none =>
    -- a kernel asks its device at most
    obtain ⟨W₀, g₀, hmade⟩ := hdue.made hload
    have hsilent : Silent e (execute devices (realizeUpTo devices depth) held item) := by
      have hsame (counted : Bool) (m : Nat → Option (Tree α)) (inputs : List (Block α)) :
          (e.record (item.request counted m inputs)).trace = e.trace :=
        (trace_record ..).trans (List.append_nil _)
      refine Sat.imp (sat_execute_supplied hmade hsupplied hload held) ?_ ?_
      · rintro _ _ ⟨counted, m, inputs, -, -, rfl⟩
        exact ⟨hsame counted m inputs, rfl⟩
      · rintro _ _ (⟨-, rfl⟩ | ⟨counted, m, inputs, -, -, -, -, -, rfl⟩)
        · exact ⟨rfl, rfl⟩
        · exact ⟨hsame counted m inputs, rfl⟩
    have hkeeps : Keeps (fun id => False ∨ id = item.output.base.id) W e
        (execute devices (realizeUpTo devices depth) held item) _ :=
      keeps_execute devices (realizesBelow_realizeUpTo devices depth) h hdue hsupplied hbegins nofun
        held
    exact (hsilent.tells hkeeps).imp fun _ _ _ => trivial
  | some op =>
    have hfind : KeepsAny W e (ofExcept (devices.find item.output.device)) _ := keeps_value h _
    refine ((silent_ofExcept e _).tells hfind).bind ?_
    rintro backend e ⟨W, -, -, rfl, rfl⟩
    rw [hload]
    obtain ⟨earlier, hlast⟩ := hbegins.last
    exact tells_runLoad hdepth held backend (hbegins.load.trans hload) hbegins.output.symm
      (hlast ▸ List.mem_append_right _ (List.mem_singleton_self _)) h
      fun b hb => (h.wellFormed.older_base hdue.lists (hdue.load op hload) b hb).1

omit [Lane α] in
/-- A unit begins with the next number. -/
theorem sat_begin (e : Engine α) (item : Item α) :
    Sat (begin item) e (fun context e' => item.Begins context e'.journal
      ∧ context.number = e.units + 1 ∧ e' = e.begun context item.tree) fun _ _ => False :=
  ⟨⟨rfl, rfl, rfl, rfl, e.journal, rfl⟩, rfl, rfl⟩

/-- A unit whose base has no result runs, from its beginning to its end. -/
theorem tells_runUnit (hdepth : TellsUpTo devices depth) (h : Orderly W e)
    (hdue : item.Due W e.graph k) (hsupplied : item.Supplied e.graph)
    (hnests : ∀ frame ∈ around, frame.Nests) (held : List Buffer) :
    Tells devices around e (runUnit devices (realizeUpTo devices depth) held item)
      fun _ _ => True := by
  refine Sat.of_run ?_
  generalize houtcome : (runUnit devices (realizeUpTo devices depth) held item).run e = outcome
  rw [runUnit, sat_bind, sat_graph]
  split
  · next hunrealized =>
    have hwaits : e.graph.isRealized item.output = false := by simpa using hunrealized
    have hbegin : KeepsAny W e (begin item) _ := keeps_begin h hdue hwaits
    refine sat_bind.mpr (Sat.imp ((sat_begin e item).and hbegin) ?_ fun _ _ h => h.1.elim)
    rintro context e₁ ⟨⟨hbegins, hnumber, rfl⟩, W₁, hadvances₁, -, rfl, -⟩
    have h₁ := Advances.orderly hadvances₁
    have hdue₁ : item.Due W₁ (e.begun context item.tree).graph k := hdue
    -- whether or not the unit fails in the end, the same is known of how it has begun
    have hran {failure : Option Error} {e₂ e' : Engine α} {inner : List (Event α)}
        (hinner : Course devices (some ⟨context, item.tree⟩) (e.begun context item.tree) e₂ inner
          failure.isSome)
        (hends : e₂.Continues [.after context failure] e')
        (hrun : outcome = (failure.elim (.ok ()) fun cause => .error (.error cause), e'))
        (hsettled : e'.graph.isRealized item.output = failure.isNone) :
        item.Ran devices context failure e e' := by
      refine ⟨⟨depth, held, houtcome.trans hrun⟩, ⟨inner, ?_⟩, hnumber, hbegins.output, hdue.base,
        hbegins.load, hwaits, hsettled⟩
      rw [hends.trace, hinner.told.trace, trace_begun]
      simp
    have hkeeps : Keeps (fun id => False ∨ id = item.output.base.id) W₁ (e.begun context item.tree)
        (execute devices (realizeUpTo devices depth) held item) _ :=
      keeps_execute devices (realizesBelow_realizeUpTo devices depth) h₁ hdue hsupplied hbegins nofun
        held
    refine sat_bind.mpr (sat_attempt.mpr (Sat.imp
      (Sat.and (tells_execute hdepth h₁ hdue hsupplied hbegins held) hkeeps) ?_ ?_))
    · rintro block e₂ ⟨⟨⟨inner, hinner⟩, -⟩, W₂, hadvances₂, -⟩
      have h₂ := Advances.orderly hadvances₂
      obtain ⟨hlist, -, hwaits₂⟩ := hdue₁.waits h₁.wellFormed hadvances₂ (.inr rfl) hwaits
      refine Sat.imp (sat_finish hwaits₂ context block) ?_ fun _ _ h => h.elim
      rintro _ _ rfl hrun
      have hends : e₂.Continues [.after context none] { e₂.record (.after context none) with
          graph := e₂.graph.setResult item.output.base.id block } :=
        ⟨trace_record e₂ _, rfl, h₂.wellFormed.grows_setResult hwaits₂ block⟩
      exact ⟨⟨_, .unit .refl hnests (hran hinner hends hrun
        (h₂.wellFormed.isRealized_setResult hlist block)) hinner hends⟩, trivial⟩
    · rintro failure e₂ ⟨hfails, -, W₂, hadvances₂⟩
      refine ⟨?_, fun hunhandled _ cause hcause => absurd hcause (hunhandled cause)⟩
      rintro cause rfl hrun _ ⟨⟩
      obtain ⟨inner, hinner⟩ := hfails cause rfl
      have hends : e₂.Continues [.after context (some cause)]
          (e₂.record (.after context (some cause))) := ⟨trace_record e₂ _, rfl, .refl _⟩
      obtain ⟨-, -, hwaits₂⟩ := hdue₁.waits h₁.wellFormed hadvances₂ (.inr rfl) hwaits
      exact ⟨_, .unit .refl hnests (hran hinner hends hrun hwaits₂) hinner hends⟩
  · exact fun _ => ⟨⟨[], .refl⟩, trivial⟩

/-! ## Realizing -/

variable {items : List (Item α)}

theorem tells_runUnits (hdepth : TellsUpTo devices depth) (h : Orderly W e)
    (hdue : ∀ item ∈ items, item.Due W e.graph k) (hordered : Plan.Ordered e.graph items)
    (hnests : ∀ frame ∈ around, frame.Nests) (held : List Buffer) :
    Tells devices around e (items.forM (runUnit devices (realizeUpTo devices depth) held))
      fun _ _ => True := by
  induction items generalizing W e with
  | nil => exact tells_pure trivial
  | cons item items ih =>
    obtain ⟨hdue₀, hdue⟩ := List.forall_mem_cons.mp hdue
    have hkeeps : KeepsAny W e (runUnit devices (realizeUpTo devices depth) held item) _ :=
      keeps_runUnit devices (realizesBelow_realizeUpTo devices depth) h hdue₀ hordered.supplied nofun
        held
    refine ((tells_runUnit hdepth h hdue₀ hordered.supplied hnests held).and_keeps hkeeps).bind ?_
    rintro _ e' ⟨W', hadvances, hdone⟩
    exact ih hadvances.orderly (fun x hx => (hdue x hx).of_leads h.wellFormed hadvances.graph)
      (ordered_tail h.wellFormed hadvances.graph hdue₀.base (fun x hx => (hdue x hx).inputs) hordered
        hdone)

/-- However deep realizations nest, they take their course. -/
theorem tells_realizeUpTo (devices : Registry α) (depth : Nat) : TellsUpTo devices depth := by
  induction depth with
  | zero =>
    intro W e around b _ _ _ held
    rw [realizeUpTo, Tells, sat_bind, sat_graph]
    exact tells_fail _
  | succ depth ih =>
    intro W e around b h hb hnests held
    rw [realizeUpTo, Tells, sat_bind, sat_graph]
    split
    · exact tells_pure trivial
    have hschedule : KeepsAny W e (build (b.schedule held)) _ := keeps_schedule h hb held
    refine ((silent_build e _).tells hschedule).bind ?_
    rintro items e₁ ⟨W₁, hadvances₁, hscheduled, hplanned, hcores⟩
    have hb₁ := hadvances₁.graph.census.lists hb
    have hdue := hscheduled.due hadvances₁.orderly.wellFormed hb₁ hplanned
      (.base (Nat.lt_succ_self _))
    refine (tells_runUnits ih hadvances₁.orderly hdue hscheduled.ordered hnests _).bind ?_
    intro _ e₂ _
    rw [Tells, sat_bind, sat_graph]
    split
    · exact tells_pure trivial
    · exact tells_fail _

end Run

namespace Buffer

variable [Lane α]

/-- Realizing a buffer takes its course. -/
theorem tells_realize (devices : Registry α) (h : Orderly W e) (hb : W.Lists b)
    (held : List Buffer) : Run.Tells devices none e (b.realize devices held) fun _ _ => True := by
  have hdepth : Run.Tells devices none e Run.depth fun _ e' => e' = e := ⟨⟨[], .refl⟩, rfl⟩
  refine hdepth.bind ?_
  rintro depth e rfl
  exact Run.tells_realizeUpTo devices depth h hb (by simp) held

/-- Reading a buffer back takes its course. -/
theorem tells_readBack (devices : Registry α) (h : Orderly W e) (hb : W.Lists b)
    (held : List Buffer) : Run.Tells devices none e (b.readBack devices held) fun _ _ => True := by
  have hdepth : Run.Tells devices none e Run.depth fun _ e' => e' = e := ⟨⟨[], .refl⟩, rfl⟩
  refine hdepth.bind ?_
  rintro depth e rfl
  exact Run.tells_readBack (Run.tells_realizeUpTo devices depth) h hb (by simp) held

end Buffer

end TensorGraph
