import TensorGraph.Proofs.Engine.Orderly
import TensorGraph.Proofs.Schedule.Within
/-!
# Realizing keeps engines orderly

However far a computation of the engine gets, whatever the backends and the loaders answer, and
however realizations nest, the engine stays orderly. A unit around a nested realization still waits
for its result, as only older bases and fresh copies are realized inside it. What a kernel reads has
results when its turn comes, as a schedule lists it after the units for what it reads.

- `Run.Keeps`: computations that keep the engine orderly.
- `Run.RealizesBelow`: how to realize buffers.
- `Item.Due`: the units that may run.
- `Run.keeps_runUnit`: one unit.
- `Run.realizesBelow_realizeUpTo`: realizing, whatever the depth.
-/

namespace TensorGraph

open TensorGraph.Graph TensorGraph.Engine World

variable {α : Type} {fixed fixed' : Nat → Prop} {W W' : Census} {g g' : Graph α} {e e' : Engine α}
  {b : Buffer} {item : Item α} {k : Nat}

namespace Run

variable {β γ : Type} {post : β → Census → Engine α → Prop}

/-- The computation `x`, started in a state with the census `W`, keeps the engine orderly whether it
succeeds or fails, and satisfies `post` if it succeeds. Bases with a number in `fixed` that wait for a
result still do. -/
abbrev Keeps (fixed : Nat → Prop) (W : Census) (e : Engine α) (x : Run α β)
    (post : β → Census → Engine α → Prop) : Prop :=
  (orderly fixed).Keeps W e x post fun _ => True

theorem Keeps.mono {x : Run α β} (h : Keeps fixed W e x post) (hfixed : ∀ id, fixed' id → fixed id) :
    Keeps fixed' W e x post := by
  refine Sat.imp h ?_ ?_
  · rintro c e' ⟨W', hadvances, hpost⟩
    exact ⟨W', Advances.imp hadvances hfixed fun _ _ => id, hpost⟩
  · rintro f e' ⟨hfail, W', hadvances⟩
    exact ⟨hfail, W', Advances.imp hadvances hfixed fun _ _ => id⟩

theorem keeps_fail (h : Orderly W e) (cause : Error) : Keeps fixed W e (fail cause) post :=
  keeps_throw h trivial

theorem keeps_value (h : Orderly W e) (r : Except Error β) :
    Keeps fixed W e (ofExcept r) fun b W' e' => r = .ok b ∧ W' = W ∧ e' = e :=
  keeps_ofExcept h fun _ _ => trivial

/-- Building adds bases that wait. -/
theorem keeps_built {x : Build α β} {mid : β → Census → Graph α → Prop} (h : Orderly W e)
    (hx : building.Keeps W e.graph x mid fun _ => True) :
    Keeps fixed W e (build x)
      fun c W' e' => mid c W' e'.graph ∧ e' = { e with graph := e'.graph } := by
  refine sat_build.mpr (Sat.imp hx ?_ ?_)
  · rintro c g' ⟨W', hbuilt, hmid⟩
    exact ⟨W', h.built hbuilt, hmid, rfl⟩
  · rintro _ g' ⟨-, W', hbuilt⟩
    exact ⟨trivial, W', (h.built hbuilt).halts⟩

theorem keeps_ask (h : Orderly W e) (b : Backend α) (device : String) (query : Query α)
    (haligned : Event.Aligned e.graph e.journal (.request device b.counted (.query query)))
    (htraced : Event.Traced e.graph e.journal (.request device b.counted (.query query))) :
    Keeps fixed W e (b.ask device query) fun _ W' e' => W' = W ∧ e'.graph = e.graph := by
  have hrecord : Keeps fixed W e (record (.request device b.counted (.query query)))
      fun _ W' e' => W' = W ∧ e'.graph = e.graph :=
    ⟨W, h.record rfl trivial haligned htraced fun _ => .singleton id, rfl, rfl⟩
  rw [Backend.ask]
  refine hrecord.bind ?_
  rintro _ W e' hadvances ⟨rfl, hgraph⟩
  dsimp only
  split
  · exact keeps_pure (Advances.orderly hadvances) ⟨rfl, hgraph⟩
  · exact keeps_throw (Advances.orderly hadvances) trivial

theorem keeps_knownDims (h : Orderly W e) (b : Buffer) (task : String) :
    Keeps fixed W e (knownDims b task) fun _ W' e' => W' = W ∧ e' = e := by
  rw [knownDims]
  split
  · exact keeps_pure h ⟨rfl, rfl⟩
  · exact keeps_fail h _

/-! ## Loads -/

/-- Buffers are realized. If a realization loads bases below `k` only, bases above go on waiting. -/
def RealizesBelow (realize : Realizer α) : Prop :=
  ∀ {W : Census} {e : Engine α} {fixed : Nat → Prop} {k : Nat} {b : Buffer},
    Orderly W e → W.Lists b → b.Within e.graph k →
    (∀ id, fixed id → k ≤ id ∧ id < e.graph.next ∧ id ≠ b.base.id) → ∀ held,
    Keeps fixed W e (realize held b) fun _ _ e' => e'.graph.isRealized b = true

/-- A dense copy is on the base of the buffer, or on a new base. -/
theorem keeps_contiguous (h : Orderly W e) (hb : W.Lists b) :
    Keeps fixed W e (build b.contiguous) fun c W' e' => W'.Lists c
      ∧ (c = b ∨ c.base.id = e.graph.next ∧ ∃ arg issuer,
          e'.graph.op? c = some (.node (.load .contiguous) arg issuer [.buffer b])) := by
  have hx : building.Keeps W e.graph (b.contiguous : Build α Buffer) (fun c W' g' => W'.Lists c
      ∧ (c = b ∨ c.base.id = e.graph.next ∧ ∃ arg issuer,
          g'.op? c = some (.node (.load .contiguous) arg issuer [.buffer b]))) fun _ => True := by
    refine (Buffer.sat_contiguous h.wellFormed hb).imp ?_ ?_
    rotate_left
    · rintro _ _ ⟨rfl, -⟩
      exact ⟨trivial, W, h.wellFormed.viewed.built⟩
    rintro c g' (⟨-, rfl, rfl⟩ | ⟨-, W', hadded⟩)
    · exact ⟨W, h.wellFormed.viewed.built, hb, .inl rfl⟩
    · have hbuilt := hadded.built h.wellFormed
      refine ⟨W', hbuilt, hadded.lists,
        .inr ⟨by rw [hadded.buffer_eq]; rfl, .none, some e.graph.next, ?_⟩⟩
      have hcores := cores_insert e.graph (some (.node (.load .contiguous) .none none [.buffer b]))
        none b.shape b.dtype b.device b.config
      rw [← hadded.graph_eq] at hcores
      refine (hbuilt.wellFormed.op?_eq (hcores ▸ List.mem_cons_self) ?_).trans rfl
      rw [hadded.buffer_eq]
      rfl
  exact (keeps_built h hx).imp fun _ _ _ _ h => h.1

variable [Lane α] {realize : Realizer α}

theorem keeps_readBack (hrealize : RealizesBelow realize) (h : Orderly W e) (hb : W.Lists b)
    (hlt : b.base.id < k) (hfixed : ∀ id, fixed id → k ≤ id ∧ id < e.graph.next)
    (held : List Buffer) : Keeps fixed W e (readBack realize held b) fun _ _ _ => True := by
  rw [readBack]
  refine (keeps_knownDims h b _).bind ?_
  rintro dims W e - ⟨rfl, rfl⟩
  refine (keeps_contiguous h hb).bind ?_
  rintro dense W₁ e₁ hadvances ⟨hdense, hcases⟩
  have h₁ := Advances.orderly hadvances
  have hwithin : dense.Within e₁.graph k := by
    rcases hcases with rfl | ⟨-, arg, issuer, hop⟩
    · exact .base hlt
    · exact .copy hop hlt
  have hfixed₁ : ∀ id, fixed id → k ≤ id ∧ id < e₁.graph.next ∧ id ≠ dense.base.id := by
    intro id hid
    obtain ⟨hle, hnext⟩ := hfixed id hid
    refine ⟨hle, hnext.trans_le (Advances.graph hadvances).grows.next_le, ?_⟩
    rcases hcases with rfl | ⟨hnew, -⟩ <;> omega
  refine (hrealize h₁ hdense hwithin hfixed₁ (b :: held)).bind fun block W₂ e₂ hadvances₂ _ => ?_
  exact (keeps_value (Advances.orderly hadvances₂) _).imp fun _ _ _ _ _ => trivial

/-- A loader may read its sources back as often as it likes. One that swallows no error ends at the
first. -/
theorem keeps_follow (hrealize : RealizesBelow realize) (held : List Buffer) {sources : List Buffer}
    (h : Orderly W e) (hsources : ∀ b ∈ sources, W.Lists b ∧ b.base.id < k)
    (hfixed : ∀ id, fixed id → k ≤ id ∧ id < e.graph.next) (script : Script α sources.length)
    (hstrict : ∀ g', e.graph.Grows g' → g'.Strict → script.Strict) :
    Keeps fixed W e (follow realize held sources script) fun _ _ _ => True := by
  induction script generalizing W e with
  | finish block => exact keeps_pure h trivial
  | fail cause => exact keeps_fail h cause
  | panic text => exact keeps_throw h trivial
  | read source next ih =>
    have hnext (result : Except Error (HostArray α)) {W' : Census} {e' : Engine α}
        (hadvances : Advances fixed Event.Calm W e W' e')
        (hstrict' : ∀ g', e'.graph.Grows g' → g'.Strict → (next result).Strict) :
        Keeps fixed W' e' (follow realize held sources (next result)) fun _ _ _ => True := by
      refine ih result hadvances.orderly (fun b hb => ?_) (fun id hid => ?_) hstrict'
      · exact ⟨hadvances.graph.census.lists (hsources b hb).1, (hsources b hb).2⟩
      · exact ⟨(hfixed id hid).1, (hfixed id hid).2.trans_le hadvances.graph.grows.next_le⟩
    obtain ⟨hlist, hlt⟩ := hsources _ (List.getElem_mem source.isLt)
    rw [follow]
    refine sat_bind.mpr (sat_attempt.mpr ?_)
    refine Sat.imp (keeps_readBack hrealize h hlist hlt hfixed held) ?_ ?_
    · rintro array e' ⟨W', hadvances, -⟩
      refine Sat.imp (hnext (.ok array) hadvances fun g' hgrows hg' => ?_) ?_ ?_
      · cases hstrict g' (hadvances.graph.grows.trans hgrows) hg' with
        | read _ hok => exact hok array
      · rintro block e'' ⟨W'', hadvances', -⟩
        exact ⟨W'', (orderly fixed).trans hadvances hadvances', trivial⟩
      · rintro failure e'' ⟨-, W'', hfails⟩
        exact ⟨trivial, W'', (orderly fixed).trans_fails hadvances hfails⟩
    rintro failure e' ⟨-, W', hfails⟩
    refine ⟨?_, fun _ => ⟨trivial, W', hfails⟩⟩
    rintro cause rfl
    by_cases hrefuses : (next (.error cause)).Refuses
    · generalize next (.error cause) = rest at hrefuses
      cases hrefuses with
      | fail => exact ⟨trivial, W', hfails⟩
      | panic => exact ⟨trivial, W', hfails⟩
    · -- the loader goes on after an error, so that nothing is known of failures
      have hloose {g' : Graph α} (hgrows : e.graph.Grows g') : ¬g'.Strict := by
        intro hg'
        cases hstrict g' hgrows hg' with
        | read herror _ => exact hrefuses (herror cause)
      have hadvances : Advances fixed Event.Calm W e W' e' :=
        Advances.imp hfails (fun _ => id) fun hg' => absurd hg' (hloose hfails.graph.grows)
      refine Sat.imp (hnext (.error cause) hadvances fun g' hgrows hg' => ?_) ?_ ?_
      · exact absurd hg' (hloose (hadvances.graph.grows.trans hgrows))
      · rintro block e'' ⟨W'', hadvances', -⟩
        exact ⟨W'', (orderly fixed).trans hadvances hadvances', trivial⟩
      · rintro failure e'' ⟨-, W'', hfails'⟩
        exact ⟨trivial, W'', (orderly fixed).trans_fails hadvances hfails'⟩

omit [Lane α] in
/-- The sources of a custom load are realized one after the other. -/
theorem keeps_realizeAll (hrealize : RealizesBelow realize) (h : Orderly W e) (held : List Buffer)
    {sources : List Buffer} (hsources : ∀ b ∈ sources, W.Lists b ∧ b.base.id < k)
    (hfixed : ∀ id, fixed id → k ≤ id ∧ id < e.graph.next) :
    Keeps fixed W e (sources.forM fun source => do let _ ← realize held source)
      fun _ _ e' => ∀ b ∈ sources, e'.graph.isRealized b = true := by
  induction sources generalizing W e with
  | nil => exact keeps_pure h nofun
  | cons source sources ih =>
    obtain ⟨⟨hlist, hlt⟩, hsources⟩ := List.forall_mem_cons.mp hsources
    have hfixed' : ∀ id, fixed id → k ≤ id ∧ id < e.graph.next ∧ id ≠ source.base.id := by
      intro id hid
      obtain ⟨hle, hnext⟩ := hfixed id hid
      exact ⟨hle, hnext, by omega⟩
    have hfirst : Keeps fixed W e (do let _ ← realize held source)
        fun _ _ e' => e'.graph.isRealized source = true := by
      refine (hrealize h hlist (.base hlt) hfixed' held).bind fun _ W' e' hadvances hdone => ?_
      exact keeps_pure (Advances.orderly hadvances) hdone
    refine hfirst.bind fun _ W₁ e₁ hadvances₁ hdone => ?_
    have hadvances : Advances fixed Event.Calm W e W₁ e₁ := hadvances₁
    refine (ih hadvances.orderly (fun b hb => ?_) (fun id hid => ?_)).imp ?_
    · exact ⟨hadvances.graph.census.lists (hsources b hb).1, (hsources b hb).2⟩
    · exact ⟨(hfixed id hid).1, (hfixed id hid).2.trans_le hadvances.graph.grows.next_le⟩
    · rintro _ W₂ e₂ hadvances₂ hrest
      refine List.forall_mem_cons.mpr ⟨?_, hrest⟩
      exact (Advances.graph hadvances₂).isRealized hadvances.orderly.wellFormed
        (hadvances.graph.census.lists hlist) hdone

omit [Lane α] in
/-- A loader is called when its sources have results. -/
theorem keeps_recordCall (h : Orderly W e) (output : Buffer) (sources : List Buffer)
    (hsources : ∀ b ∈ sources, W.Lists b ∧ e.graph.isRealized b = true) :
    Keeps fixed W e (record (.request output.device false (.call output sources)))
      fun _ W' e' => W' = W ∧ e'.graph = e.graph := by
  refine ⟨W, h.record rfl ?_ trivial trivial fun _ => .singleton id, rfl, rfl⟩
  intro b hb
  obtain ⟨hlist, hrealized⟩ := hsources b hb
  obtain ⟨c, hc, hbase, -, hresult⟩ := h.core hlist
  obtain ⟨entry, hentry, rfl⟩ := mem_cores.mp hc
  rw [isRealized, hresult, Option.isSome_iff_ne_none, h.results _ hc, hbase] at hrealized
  exact ⟨entry, hentry, congrArg Base.id hbase, hrealized⟩

theorem keeps_callLoader (hrealize : RealizesBelow realize) (h : Orderly W e) (held : List Buffer)
    (output : Buffer) (loader : Loader α) {sources : List Buffer}
    (hsources : ∀ b ∈ sources, W.Lists b ∧ b.base.id < k)
    (hfixed : ∀ id, fixed id → k ≤ id ∧ id < e.graph.next)
    (hstrict : ∀ g', e.graph.Grows g' → g'.Strict → loader.Strict) :
    Keeps fixed W e (callLoader realize held output loader sources) fun _ _ _ => True := by
  rw [callLoader]
  refine (keeps_realizeAll hrealize h held hsources hfixed).bind fun _ W₁ e₁ hadvances₁ hdone => ?_
  have h₁ : Advances fixed Event.Calm W e W₁ e₁ := hadvances₁
  refine (keeps_graph h₁.orderly).look ?_
  rintro g rfl
  have hcount : Keeps fixed W₁ e₁ (modifyGraph fun g => g.countCall output.base.id)
      fun _ W' e' => W' = W₁ ∧ e' = { e₁ with graph := e₁.graph.countCall output.base.id } :=
    ⟨W₁, h₁.orderly.countCall output.base.id, rfl, rfl⟩
  refine hcount.bind ?_
  rintro _ W₂ e₂ hadvances₂ ⟨rfl, -⟩
  have h₂ : Advances fixed Event.Calm W₂ e₁ W₂ e₂ := hadvances₂
  refine (keeps_recordCall h₂.orderly output sources fun b hb => ?_).bind ?_
  · have hlist := h₁.graph.census.lists (hsources b hb).1
    exact ⟨hlist, h₂.graph.isRealized h₁.orderly.wellFormed hlist (hdone b hb)⟩
  rintro _ W₃ e₃ hadvances₃ ⟨rfl, hgraph⟩
  have h₃ : Advances fixed Event.Calm W e W₃ e₃ :=
    (orderly fixed).trans h₁ ((orderly fixed).trans h₂ hadvances₃)
  refine keeps_follow (k := k) hrealize held h₃.orderly (fun b hb => ?_) (fun id hid => ?_) _
    fun g' hgrows hg' => hstrict g' (h₃.graph.grows.trans hgrows) hg' _ _ _
  · exact ⟨h₃.graph.census.lists (hsources b hb).1, (hsources b hb).2⟩
  · exact ⟨(hfixed id hid).1, (hfixed id hid).2.trans_le h₃.graph.grows.next_le⟩

omit [Lane α] in
/-- A source that is a buffer is a leaf. -/
theorem mem_leaves_of_source {t source : Tree α} {b : Buffer} (h : source ∈ t.sources)
    (hb : source.buffer? = some b) : b ∈ t.leaves := by
  cases source with
  | node => cases hb
  | buffer c =>
    obtain rfl := Option.some.inj hb
    cases t with
    | buffer d => simp [Tree.sources] at h
    | node code arg issuer sources =>
      rw [Tree.leaves_node, List.mem_flatMap]
      exact ⟨_, h, List.mem_singleton_self c⟩

theorem keeps_runLoad (hrealize : RealizesBelow realize) (h : Orderly W e) (held : List Buffer)
    (backend : Backend α) (output : Buffer) (op : LoadOp) {tree : Tree α}
    (htree : ∀ b ∈ tree.leaves, W.Lists b ∧ b.base.id < k)
    (hfixed : ∀ id, fixed id → k ≤ id ∧ id < e.graph.next)
    (hstrict : ∀ g', e.graph.Grows g' → g'.Strict → ∀ l, tree.arg = .loader l → l.Strict) :
    Keeps fixed W e (runLoad realize held backend output op tree) fun _ _ _ => True := by
  cases op with rw [runLoad.eq_def]
  | empty =>
    refine (keeps_knownDims h output _).bind ?_
    rintro dims W e - ⟨rfl, rfl⟩
    exact (keeps_ask h _ _ _ (by trivial) (by trivial)).imp fun _ _ _ _ _ => trivial
  | rand =>
    refine (keeps_knownDims h output _).bind ?_
    rintro dims W e - ⟨rfl, rfl⟩
    split
    · refine (keeps_value h _).bind ?_
      rintro array W e - ⟨-, rfl, rfl⟩
      exact (keeps_ask h _ _ _ (by trivial) (by trivial)).imp fun _ _ _ _ _ => trivial
    · exact keeps_fail h _
  | const =>
    dsimp only
    split
    · split
      · exact keeps_pure h trivial
      · exact (keeps_ask h _ _ _ (by trivial) (by trivial)).imp fun _ _ _ _ _ => trivial
    · refine (keeps_graph h).bind ?_
      rintro g W e - ⟨-, rfl, rfl⟩
      exact keeps_fail h _
  | copy =>
    dsimp only
    split
    · next source hsource =>
      obtain ⟨t, ht, hbuffer⟩ := Option.bind_eq_some_iff.mp hsource
      obtain ⟨hlist, hlt⟩ := htree source (mem_leaves_of_source (List.mem_of_mem_head? ht) hbuffer)
      refine (keeps_readBack hrealize h hlist hlt hfixed held).bind fun array W' e' hadvances _ => ?_
      exact (keeps_ask (Advances.orderly hadvances) _ _ _ (by trivial) (by trivial)).imp
        fun _ _ _ _ _ => trivial
    · exact keeps_fail h _
  | custom =>
    dsimp only
    split
    · next loader hloader =>
      refine keeps_callLoader hrealize h held output loader (fun b hb => ?_) hfixed
        fun g' hgrows hg' => hstrict g' hgrows hg' loader hloader
      obtain ⟨t, ht, hbuffer⟩ := List.mem_filterMap.mp hb
      exact htree b (mem_leaves_of_source ht hbuffer)
    · exact keeps_fail h _
  | contiguous => exact keeps_fail h _

end Run

/-! ## Units -/

/-- A unit of a schedule, which may run: its output was handed out and has an operation. A load is the
operation of its base, which lies below `k`. -/
structure Item.Due (W : Census) (g : Graph α) (k : Nat) (item : Item α) : Prop where
  /-- The output was handed out. -/
  lists : W.Lists item.output
  /-- The output is the handle on a base. -/
  base : item.output = item.output.base.buffer
  /-- The base has an operation. -/
  computed : g.op? item.output ≠ none
  /-- A load is that operation. -/
  load : ∀ op, item.load? = some op → g.op? item.output = some item.tree
  /-- Loads nest below `k`. -/
  below : ∀ op, item.load? = some op → item.output.base.id < k
  /-- The inputs were handed out. -/
  inputs : ∀ b ∈ item.inputs, W.Lists b
  /-- A kernel was compiled in an earlier graph. -/
  made : item.load? = none → ∃ W₀ g₀, item.Made W₀ g₀ W g
  /-- The unit is part of a schedule. -/
  planned : item.Planned g

theorem Item.Due.of_leads (h : item.Due W g k) (hg : g.WellFormed W) (hleads : Leads W g W' g') :
    item.Due W' g' k where
  lists := hleads.census.lists h.lists
  base := h.base
  computed := hleads.op?_eq hg h.lists ▸ h.computed
  load op hload := hleads.op?_eq hg h.lists ▸ h.load op hload
  below := h.below
  inputs b hb := hleads.census.lists (h.inputs b hb)
  made hload := by
    obtain ⟨W₀, g₀, hmade⟩ := h.made hload
    exact ⟨W₀, g₀, hmade.of_leads hleads⟩
  planned := h.planned.of_grows hleads.grows

/-- The base of the unit waits as long as it may not get a result. -/
theorem Item.Due.waits {allowed : List (Event α) → Prop} (h : item.Due W e.graph k)
    (hg : e.graph.WellFormed W) (hadvances : Advances fixed allowed W e W' e')
    (hfixed : fixed item.output.base.id) (hwaits : e.graph.isRealized item.output = false) :
    W'.Lists item.output ∧ e'.graph.op? item.output ≠ none
      ∧ e'.graph.isRealized item.output = false :=
  ⟨hadvances.graph.census.lists h.lists, hadvances.graph.op?_eq hg h.lists ▸ h.computed,
    hadvances.isRealized_eq hg h.lists hfixed hwaits⟩

/-- What is lowered has an operation, and a load is that operation. -/
theorem Buffer.Lowers.computed (h : b.Lowers W g item) :
    g.op? b ≠ none ∧ ∀ op, item.load? = some op → g.op? b = some item.tree := by
  cases h with
  | load hop hcode =>
    obtain ⟨op', hop', rfl⟩ := Option.map_eq_some_iff.mp hop
    rw [(lowered_of_load hcode).1, hop']
    exact ⟨nofun, fun _ _ => rfl⟩
  | kernel hop hfuse hcompiled =>
    obtain ⟨op', hop', -⟩ := Option.map_eq_some_iff.mp hop
    refine ⟨fun hnone => absurd (hnone.symm.trans hop') nofun, fun op hload => ?_⟩
    exact absurd (hload.symm.trans (hfuse.load?_eq_none hcompiled)) nofun

/-- The units of a schedule may run. -/
theorem Scheduled.due (hg : g.WellFormed W) (hb : W.Lists b) {items : List (Item α)}
    (h : Scheduled W g b items) (hplanned : ∀ item ∈ items, item.Planned g)
    (hwithin : b.Within g k) : ∀ item ∈ items, item.Due W g k := by
  intro item hitem
  obtain ⟨hlowers, hlist, hbase, -⟩ := h.units item hitem
  have hbaseList := hg.lists_base hlist
  obtain ⟨hcomputed, hload⟩ := hlowers.computed
  obtain ⟨-, hleaves, hinputs, -⟩ := hlowers.reads hg (.refl W) hbaseList
  exact ⟨hlist, hbase, hcomputed, hload, (h.within hg hb hwithin item hitem).2,
    fun b hb => (hleaves b (hinputs b hb)).1, fun hload => ⟨W, g, hlowers.made hg hbaseList hload⟩,
    hplanned item hitem⟩

namespace Run

/-- The base of the unit goes on waiting while the unit is at work. -/
theorem keeps_execute [Lane α] {realize : Realizer α} (devices : Registry α)
    (hrealize : RealizesBelow realize) (h : Orderly W e) (hdue : item.Due W e.graph k)
    (hsupplied : item.Supplied e.graph) {context : UnitRecord}
    (hbegins : item.Begins context e.journal)
    (hfixed : ∀ id, fixed id → k ≤ id ∧ id < e.graph.next) (held : List Buffer) :
    Keeps (fun id => fixed id ∨ id = item.output.base.id) W e (execute devices realize held item)
      fun _ _ _ => True := by
  cases hload : item.load? with
  | none =>
    obtain ⟨W₀, g₀, hmade⟩ := hdue.made hload
    have hrecord {m : Nat → Option (Tree α)} {inputs : List (Block α)} (counted : Bool)
        (hlines : e.graph.LinesUp item.fused m inputs)
        (hruns : item.Runs e.graph (item.fused.substitute m) inputs.length) :
        Advances (fun id => fixed id ∨ id = item.output.base.id) Event.Calm W e W
          (e.record (item.request counted m inputs)) :=
      h.record rfl trivial (hbegins.aligned hdue.planned hload hlines counted)
        (hbegins.traced hdue.planned hload hruns counted) fun _ => .singleton id
    refine Sat.imp (sat_execute_supplied hmade hsupplied hload held) ?_ ?_
    · rintro _ _ ⟨counted, m, inputs, hlines, hruns, rfl⟩
      exact ⟨W, hrecord counted hlines hruns, trivial⟩
    · rintro _ _ (⟨-, rfl⟩ | ⟨counted, m, inputs, -, -, hlines, hruns, -, rfl⟩)
      · exact ⟨trivial, W, (orderly _).fails ((orderly _).refl h)⟩
      · exact ⟨trivial, W, (hrecord counted hlines hruns).halts⟩
  | some op =>
    have htree := hdue.load op hload
    have hlt := hdue.below op hload
    refine (keeps_value h _).look fun backend _ => ?_
    rw [hload]
    refine keeps_runLoad (k := item.output.base.id) hrealize h held backend _ op ?_ ?_ ?_
    · exact h.wellFormed.older_base hdue.lists htree
    · rintro id (hid | rfl)
      · exact ⟨by have := (hfixed id hid).1; omega, (hfixed id hid).2⟩
      · exact ⟨le_refl _, h.wellFormed.lt_next (h.wellFormed.lists_base hdue.lists)⟩
    · intro g' hgrows hg' l hl
      obtain ⟨c, hc, -, hop', -⟩ := h.core hdue.lists
      obtain ⟨c', hc', -, hop'', -⟩ := hgrows.kept c hc
      exact hg'.core hc' (hop''.trans (hop'.symm.trans htree)) hl

/-- A unit begins while its base waits. -/
theorem keeps_begin (h : Orderly W e) (hdue : item.Due W e.graph k)
    (hwaits : e.graph.isRealized item.output = false) :
    Keeps fixed W e (begin item) fun context W' e' =>
      item.Begins context e'.journal ∧ W' = W ∧ e'.graph = e.graph := by
  have hid : item.output.id = item.output.base.id := congrArg Buffer.id hdue.base
  obtain ⟨hdone, hcomputes⟩ := h.waiting hdue.lists hdue.computed hwaits
  have hcounted : Advances fixed Event.Calm W e W { e with units := e.units + 1 } := h.counted _
  refine ⟨W, (orderly fixed).trans hcounted (hcounted.orderly.record rfl ⟨?_, ?_⟩ trivial
    trivial fun _ => .singleton id), ⟨rfl, rfl, rfl, rfl, e.journal, rfl⟩, rfl, rfl⟩
  · exact hid ▸ hdone
  · exact hid ▸ hcomputes

/-- A result is filled in where there is none. -/
theorem sat_finish (hwaits : e.graph.isRealized item.output = false) (context : UnitRecord)
    (block : Block α) : Sat (record (.after context none) >>= fun _ => finish item block) e
      (fun _ e' => e' = { e.record (.after context none) with
        graph := e.graph.setResult item.output.base.id block }) fun _ _ => False := by
  rw [sat_bind]
  change Sat (finish item block) (e.record (.after context none)) _ _
  rw [finish, sat_bind]
  change Sat (if e.graph.isRealized item.output then _ else _) _ _ _
  rw [hwaits]
  rfl

/-- A unit leaves its base with a result, or fails and leaves it without. -/
theorem keeps_runUnit [Lane α] {realize : Realizer α} (devices : Registry α)
    (hrealize : RealizesBelow realize) (h : Orderly W e) (hdue : item.Due W e.graph k)
    (hsupplied : item.Supplied e.graph)
    (hfixed : ∀ id, fixed id → k ≤ id ∧ id < e.graph.next ∧ id ≠ item.output.base.id)
    (held : List Buffer) : Keeps fixed W e (runUnit devices realize held item)
      fun _ _ e' => e'.graph.isRealized item.output = true := by
  refine (keeps_graph h).look ?_
  rintro g rfl
  split
  · next hunrealized =>
    have hwaits : e.graph.isRealized item.output = false := by simpa using hunrealized
    refine (keeps_begin h hdue hwaits).bind ?_
    rintro context W e₁ hadvances₁ ⟨hbegins, rfl, hgraph⟩
    have h₁ := Advances.orderly hadvances₁
    have hdue₁ : item.Due W e₁.graph k := hgraph ▸ hdue
    have hsupplied₁ : item.Supplied e₁.graph := hgraph ▸ hsupplied
    have hcontext : context.output = item.output.base.id :=
      hbegins.output.trans (congrArg Buffer.id hdue.base)
    have hfixed₁ : ∀ id, fixed id → k ≤ id ∧ id < e₁.graph.next := fun id hid =>
      ⟨(hfixed id hid).1, hgraph ▸ (hfixed id hid).2.1⟩
    refine sat_bind.mpr (sat_attempt.mpr ?_)
    refine Sat.imp ((keeps_execute devices hrealize h₁ hdue₁ hsupplied₁ hbegins hfixed₁ held).and
      (sat_execute_ends (fun hload => ⟨hdue₁.made hload, hsupplied₁⟩) hbegins held)) ?_ ?_
    · rintro block e₂ ⟨⟨W₂, hadvances₂, -⟩, hends⟩
      obtain ⟨hlist, hcomputed, hwaits₂⟩ :=
        hdue₁.waits h₁.wellFormed hadvances₂ (.inr rfl) (hgraph ▸ hwaits)
      have hdone : Advances fixed Event.Calm W₂ e₂ W₂ { e₂.record (.after context none) with
          graph := e₂.graph.setResult item.output.base.id block } :=
        hadvances₂.orderly.finished hlist hcomputed hwaits₂ (fun hid => (hfixed _ hid).2.2 rfl)
          hcontext hends block
      refine Sat.imp (sat_finish hwaits₂ context block) ?_ fun _ _ h => h.elim
      rintro _ _ rfl
      refine ⟨W₂, (orderly fixed).trans ?_ hdone, ?_⟩
      · exact Advances.imp hadvances₂ (fun _ => .inl) fun _ _ => id
      · exact hadvances₂.orderly.wellFormed.isRealized_setResult hlist block
    · rintro failure e₂ ⟨⟨-, W₂, hfails⟩, hends⟩
      have hfails' : Advances fixed Event.Halts W e₁ W₂ e₂ :=
        Advances.imp hfails (fun _ => .inl) fun _ _ => id
      refine ⟨?_, fun _ => ⟨trivial, W₂, hfails'⟩⟩
      rintro cause rfl
      obtain ⟨hlist, hcomputed, hwaits₂⟩ :=
        hdue₁.waits h₁.wellFormed hfails (.inr rfl) (hgraph ▸ hwaits)
      -- the failure is told, and the base still waits
      have hrecord : Advances fixed (fun news => news = [.after context (some cause)]) W₂ e₂ W₂
          (e₂.record (.after context (some cause))) :=
        (Advances.orderly hfails).failed hlist hcomputed hwaits₂ hcontext (hends cause rfl)
      refine ⟨trivial, W₂, hfails'.trans hrecord ?_⟩
      rintro news _ hnews rfl
      exact hnews.failure context cause
  · next hrealized => exact keeps_pure h (by simpa using hrealized)

/-! ## Realizing -/

theorem keeps_schedule (h : Orderly W e) (hb : W.Lists b) (held : List Buffer) :
    Keeps fixed W e (build (b.schedule held)) fun items W' e' => Scheduled W' e'.graph b items
      ∧ (∀ item ∈ items, item.Planned e'.graph) ∧ e'.graph.cores = e.graph.cores := by
  have hx : building.Keeps W e.graph (b.schedule held) (fun items W' g' => Scheduled W' g' b items
      ∧ (∀ item ∈ items, item.Planned g') ∧ g'.cores = e.graph.cores) fun _ => True := by
    refine (Buffer.sat_schedule_planned h.wellFormed hb held).imp ?_ ?_
    · rintro items g' ⟨W', hviewed, hscheduled, hplanned⟩
      exact ⟨W', hviewed.built, hscheduled, hplanned, hviewed.same.cores⟩
    · rintro _ g' ⟨⟨W', hviewed⟩, -⟩
      exact ⟨trivial, W', hviewed.built⟩
  exact (keeps_built h hx).imp fun _ _ _ _ h => h.1

variable {items : List (Item α)}

/-- Once the first unit has given its base a result, the others still come after what they read. -/
theorem ordered_tail (hg : g.WellFormed W) (hleads : Leads W g W' g')
    (hbase : item.output = item.output.base.buffer) (hinputs : ∀ x ∈ items, ∀ b ∈ x.inputs, W.Lists b)
    (hordered : Plan.Ordered g (item :: items)) (hdone : g'.isRealized item.output = true) :
    Plan.Ordered g' items := by
  rintro before x after rfl b hb
  rcases hordered (item :: before) x after rfl b hb with hrealized | ⟨y, hy, hid⟩
  · exact .inl (hleads.isRealized hg (hinputs x (by simp) b hb) hrealized)
  · rcases List.mem_cons.mp hy with rfl | hy
    · left
      have hid : y.output.base.id = b.base.id := (congrArg Buffer.id hbase).symm.trans hid
      rw [isRealized, result?, hid] at hdone
      exact hdone
    · exact .inr ⟨y, hy, hid⟩

variable [Lane α] {realize : Realizer α}

theorem keeps_runUnits (devices : Registry α) (hrealize : RealizesBelow realize) (h : Orderly W e)
    (hdue : ∀ item ∈ items, item.Due W e.graph k) (hordered : Plan.Ordered e.graph items)
    (hfixed : ∀ id, fixed id → k ≤ id ∧ id < e.graph.next ∧ ∀ item ∈ items, id ≠ item.output.base.id)
    (held : List Buffer) : Keeps fixed W e (items.forM (runUnit devices realize held))
      fun _ _ _ => True := by
  induction items generalizing W e with
  | nil => exact keeps_pure h trivial
  | cons item items ih =>
    obtain ⟨hdue₀, hdue⟩ := List.forall_mem_cons.mp hdue
    have hfirst : Keeps fixed W e (runUnit devices realize held item)
        fun _ _ e' => e'.graph.isRealized item.output = true := by
      refine keeps_runUnit devices hrealize h hdue₀ hordered.supplied (fun id hid => ?_) held
      obtain ⟨hle, hnext, hne⟩ := hfixed id hid
      exact ⟨hle, hnext, hne item List.mem_cons_self⟩
    refine hfirst.bind fun _ W' e' hadvances' hdone => ?_
    have hadvances : Advances fixed Event.Calm W e W' e' := hadvances'
    refine ih hadvances.orderly (fun x hx => (hdue x hx).of_leads h.wellFormed hadvances.graph)
      (ordered_tail h.wellFormed hadvances.graph hdue₀.base (fun x hx => (hdue x hx).inputs) hordered
        hdone) fun id hid => ?_
    obtain ⟨hle, hnext, hne⟩ := hfixed id hid
    exact ⟨hle, hnext.trans_le hadvances.graph.grows.next_le,
      fun x hx => hne x (List.mem_cons_of_mem _ hx)⟩

/-- However deep realizations nest, the engine stays orderly. -/
theorem realizesBelow_realizeUpTo (devices : Registry α) (depth : Nat) :
    RealizesBelow (realizeUpTo devices depth) := by
  induction depth with
  | zero =>
    intro W e fixed k b h _ _ _ held
    refine (keeps_graph h).look ?_
    rintro g rfl
    exact keeps_fail h _
  | succ depth ih =>
    intro W e fixed k b h hb hwithin hfixed held
    refine (keeps_graph h).look ?_
    rintro g rfl
    split
    · next block hblock => exact keeps_pure h (by rw [isRealized, hblock]; rfl)
    refine (keeps_schedule h hb held).bind ?_
    rintro items W₁ e₁ hadvances₁' ⟨hscheduled, hplanned, hcores⟩
    have hadvances₁ : Advances fixed Event.Calm W e W₁ e₁ := hadvances₁'
    have h₁ := hadvances₁.orderly
    have hb₁ := hadvances₁.graph.census.lists hb
    have hwithin₁ := hwithin.of_same hcores
    have hwithins := hscheduled.within h₁.wellFormed hb₁ hwithin₁
    refine (keeps_runUnits devices ih h₁ (hscheduled.due h₁.wellFormed hb₁ hplanned hwithin₁)
      hscheduled.ordered ?_ _).bind ?_
    · -- units are of bases below `k`, or of the base of `b` itself
      intro id hid
      obtain ⟨hle, hnext, hne⟩ := hfixed id hid
      refine ⟨hle, hnext.trans_le hadvances₁.graph.grows.next_le, fun item hitem => ?_⟩
      rcases (hwithins item hitem).1 with hlt | heq <;> omega
    intro _ W₂ e₂ hadvances₂ _
    have h₂ := Advances.orderly hadvances₂
    refine (keeps_graph h₂).look ?_
    rintro g rfl
    split
    · next block hblock => exact keeps_pure h₂ (by rw [isRealized, hblock]; rfl)
    · exact keeps_fail h₂ _

end Run

namespace Buffer

variable [Lane α]

theorem keeps_realize (devices : Registry α) (h : Orderly W e) (hb : W.Lists b)
    (held : List Buffer) :
    Run.Keeps (fun _ => False) W e (b.realize devices held)
      fun _ _ e' => e'.graph.isRealized b = true := by
  have hdepth : Run.Keeps (fun _ => False) W e Run.depth fun _ W' e' => W' = W ∧ e' = e :=
    ⟨W, (orderly _).refl h, rfl, rfl⟩
  refine hdepth.bind ?_
  rintro depth W e - ⟨rfl, rfl⟩
  exact Run.realizesBelow_realizeUpTo devices depth h hb (.base (Nat.lt_succ_self _)) nofun held

theorem keeps_readBack (devices : Registry α) (h : Orderly W e) (hb : W.Lists b)
    (held : List Buffer) :
    Run.Keeps (fun _ => False) W e (b.readBack devices held) fun _ _ _ => True := by
  have hdepth : Run.Keeps (fun _ => False) W e Run.depth fun _ W' e' => W' = W ∧ e' = e :=
    ⟨W, (orderly _).refl h, rfl, rfl⟩
  refine hdepth.bind ?_
  rintro depth W e - ⟨rfl, rfl⟩
  exact Run.keeps_readBack (Run.realizesBelow_realizeUpTo devices depth) h hb (Nat.lt_succ_self _)
    nofun held

omit [Lane α] in
theorem keeps_upload (devices : Registry α) (h : Orderly W e) (array : HostArray α)
    (device : String) (config : Config) :
    Run.Keeps (fun _ => False) W e (upload devices array device config)
      fun b W' _ => W'.Lists b := by
  refine (Run.keeps_value h _).look fun backend _ => ?_
  refine (Run.keeps_ask h _ _ _ (by trivial) (by trivial)).bind ?_
  rintro block W e₁ hadvances₁ ⟨rfl, -⟩
  have h₁ := Advances.orderly hadvances₁
  refine sat_build.mpr (sat_bind.mpr ((sat_requireFormable _).imp ?_ ?_))
  · rintro _ _ ⟨rfl, -⟩
    exact ⟨_, h₁.uploaded block _ _ _ _, Census.lists_add W _⟩
  · rintro _ _ ⟨rfl, -⟩
    exact ⟨trivial, W, (orderly _).fails ((orderly _).refl h₁)⟩

end Buffer

end TensorGraph
