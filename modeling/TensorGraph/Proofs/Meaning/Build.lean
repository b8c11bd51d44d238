import TensorGraph.Proofs.Graph.Reduce
import TensorGraph.Proofs.Meaning.Growth
/-!
# Building means the reference

A buffer that an operation hands out shows the tensor that the reference makes of what the operands
show, whether operands are read where they are or written out.

- `Build.Shows`: operations that hand out a buffer which shows a tensor.
- `Tree.Stands.meaning`: what stands for an operand means the operand.
- `Buffer.shows_move`, `Buffer.shows_constant`, `Buffer.shows_elementwise`, `Buffer.shows_reduce`,
  …: the operations.
-/

namespace TensorGraph

open TensorGraph.Graph

variable {α : Type} [Lane α] {devices : Registry α} {fixed : Nat → Prop} {W W' : Census}
  {v : Valuation α} {g g' : Graph α} {b c : Buffer} {t : Tensor α}

/-- The operation hands out a buffer that shows the tensor `r`, or is refused; the graph keeps its
meaning. -/
abbrev Build.Shows (devices : Registry α) (fixed : Nat → Prop) (w : Census × Valuation α)
    (g : Graph α) (x : Build α Buffer) (r : Option (Tensor α)) : Prop :=
  (meaning devices fixed).Keeps w g x
    (fun c w' _ => w'.1.Lists c ∧ ∃ t, r = some t ∧ c.Shows w'.2 t) fun _ => True

/-! ## Movements -/

omit [Lane α] in
theorem Tensor.move_eq_some {m : Movement} {layout : Tracker} (h : t.layout.move m = .ok layout)
    {new : List Nat} (hnew : layout.shape.static? = some new) :
    t.move m = some { t with
      layout, dense := ⟨new, t.dense.dtype, fun i => t.dense.lane (m.sourceAt t.dims new i)⟩ } := by
  rw [move, h]
  simp only [hnew, Option.map_some]

/-- The tensors of the reference are small enough for the rank of every position to be a signed
word. -/
def Tensor.Small (r : Option (Tensor α)) : Prop := ∀ t, r = some t → t.dims.prod ≤ 2 ^ 63

/-- The layout of the tensor hides nothing. -/
def Tensor.Unmasked (t : Tensor α) : Prop := t.layout.Bare

omit [Lane α] in
theorem Tensor.unmasked_stored (config : Config) (x : Dense α) : (stored config x).Unmasked :=
  Tracker.bare_ofShape _

omit [Lane α] in
/-- A plain movement masks nothing. -/
theorem Tensor.Unmasked.move {t' : Tensor α} (ht : t.Unmasked) {m : Movement} (hm : m.Plain)
    (h : t.move m = some t') : t'.Unmasked := by
  rw [Tensor.move] at h
  split at h
  · next layout hlayout =>
    obtain ⟨new, -, rfl⟩ := Option.map_eq_some_iff.mp h
    exact Tracker.Bare.move ht hm.rearranges hlayout
  · cases h

omit [Lane α] in
/-- A reshape to a known shape masks nothing. -/
theorem Tensor.Unmasked.reshape {t' : Tensor α} (ht : t.Unmasked) {dims : List Nat}
    (h : t.move (.reshape (.ofNats dims)) = some t') : t'.Unmasked :=
  ht.move (m := .reshape (.ofNats dims))
    (Option.isSome_iff_exists.mpr ⟨dims, Shape.static?_ofNats dims⟩) h

theorem Tensor.unmasked_constant {value : α} {shape : Shape} (hshape : shape.isStatic = true)
    {dtype : DType} {config : Config} (h : constant value shape dtype config = some t) :
    t.Unmasked := by
  obtain ⟨ones, hones, ht⟩ := Option.bind_eq_some_iff.mp h
  exact ((unmasked_stored _ _).reshape hones).move (m := .expand shape) hshape ht

theorem Tensor.Unmasked.reduceOnce (ht : t.Unmasked) (op : ReduceOp) (new : List Nat) :
    (t.reduceOnce op new).Unmasked := by
  rw [Tensor.reduceOnce]
  split
  · exact ht
  · exact unmasked_stored _ _

/-- A reduction masks nothing, in one pass or in two. -/
theorem Tensor.Unmasked.reduce {t' : Tensor α} (ht : t.Unmasked) {op : ReduceOp} {new : List Nat}
    (h : t.reduce op new = some t') : t'.Unmasked := by
  rw [Tensor.reduce] at h
  split at h
  · exact Option.some.inj h ▸ ht
  split at h
  · obtain ⟨cut, hcut, h⟩ := Option.bind_eq_some_iff.mp h
    obtain ⟨outer, houter, h⟩ := Option.bind_eq_some_iff.mp h
    exact Option.some.inj h ▸ (((ht.reshape hcut).reduceOnce _ _).reshape houter).reduceOnce _ _
  · exact Option.some.inj h ▸ ht.reduceOnce _ _

/-- A view after a movement shows the tensor after the movement. -/
theorem Buffer.Shows.moved (hb : b.Shows v t) (ht : t.Unmasked) {m : Movement} (hm : m.Plain)
    (h : b.Moved m c) (hsmall : Tensor.Small (t.move m)) :
    ∃ t', t.move m = some t' ∧ c.Shows v t' := by
  have hmask : b.tracker.top.mask = none := hb.layout ▸ ht.top
  obtain ⟨n, -, hinto⟩ := hb.into
  obtain ⟨new, hnew⟩ := hinto.exists_dims_move hmask hm h.tracker
  have hlayout : t.layout.move m = .ok c.tracker := hb.layout ▸ h.tracker
  have hmove := Tensor.move_eq_some hlayout hnew
  have hle : new.prod ≤ 2 ^ 63 := hsmall _ hmove
  have hveiled : ¬c.tracker.Unveils :=
    Tracker.not_unveils_of_unmasked (Tracker.unmasked_move hmask hm.rearranges h.tracker)
  have hdtype : c.dtype = b.dtype := by rw [dtype, h.base]; rfl
  refine ⟨_, hmove, rfl, by rw [Buffer.config, h.base]; exact hb.config,
    hb.into.moved h hnew hle hveiled, hdtype.trans hb.lanes.dtype, fun i hi => ?_⟩
  obtain ⟨hlt, hlane⟩ := hb.into.lane_moved hmask hm.rearranges h hnew v hi
  rw [hlane]
  exact hb.lanes.lane _ hlt

/-- A reshaped view shows the reshaped tensor, masked or not. -/
theorem Buffer.Shows.reshaped (hb : b.Shows v t) {shape : Shape} {new : List Nat}
    (hnew : shape.static? = some new) (h : b.Moved (.reshape shape) c) :
    ∃ t', t.move (.reshape shape) = some t' ∧ t'.dims = new ∧ t'.config = t.config
      ∧ c.Shows v t' := by
  have hshape : c.tracker.shape.static? = some new := by
    rw [Tracker.shape_reshape h.tracker, hnew]
  have hmove := Tensor.move_eq_some (hb.layout ▸ h.tracker) hshape
  obtain ⟨hinto, hprod⟩ := hb.into.reshaped h hnew
  have hmatches := hb.into.matches_reshaped h hnew v
  refine ⟨_, hmove, rfl, rfl, rfl, by rw [Buffer.config, h.base]; exact hb.config, hinto,
    hmatches.dtype.trans hb.lanes.dtype, fun i hi => ?_⟩
  rw [hmatches.lane i hi, hb.lanes.lane i (hprod ▸ hi)]
  exact congrArg t.dense.lane (Movement.sourceAt_reshape hnew hprod hi).symm

theorem Buffer.shows_move (h : Meaningful devices (W, v) g) (hb : W.Lists b) (hshows : b.Shows v t)
    (ht : t.Unmasked) {m : Movement} (hm : m.Plain) (hsmall : Tensor.Small (t.move m)) :
    Build.Shows devices fixed (W, v) g (b.move m) (t.move m) := by
  refine (sat_move h.1 hb m).imp ?_ ?_
  · rintro c g' ⟨W', hviewed, hc, hmoved⟩
    exact ⟨(W', v), h.viewed hviewed, hc, hshows.moved ht hm hmoved hsmall⟩
  · rintro _ _ ⟨rfl, -⟩
    exact ⟨trivial, (W, v), h.refl⟩

/-! ## Operands -/

/-- What stands for an operand means what the operand shows, and its leaves find their positions or hide
them. -/
theorem Tree.Stands.meaning (h : Meaningful devices (W, v) g) (hb : W.Lists b) {dims : List Nat}
    (hinto : b.Into dims) {t : Tree α} (hstands : t.Stands W' g b) :
    Dense.Matches dims.prod (t.dense v) (b.dense v) ∧ ∀ c ∈ t.leaves, ∃ dims, c.Into dims := by
  cases hstands with
  | buffer =>
    rw [dense_buffer]
    refine ⟨.refl _ _, fun c hc => ?_⟩
    obtain rfl := List.mem_singleton.mp hc
    exact ⟨dims, hinto⟩
  | @inlined op t hop hcode hdense hexpresses =>
    obtain ⟨hpointwise, htype⟩ := h.1.pointwise_op? hb hop hcode
    -- the operation makes the lanes of the base, which the operand shows in order
    have hop_matches : Dense.Matches dims.prod (op.dense v) (b.dense v) := by
      refine ⟨dtype_dense htype, fun i hi => ?_⟩
      rw [hinto.lane_of_isContiguous hdense v hi]
      cases h.op_means hb hop with
      | kernel _ hlane => exact (hlane i).symm
      | _ => simp [codeIs, code?, Opcode.isElementwise] at hcode
    cases hexpresses with
    | same => exact ⟨hop_matches, fun c hc => h.leaf_into hb hop hc⟩
    | @reshaped m hm =>
      have hleaf : ∀ c ∈ op.leaves, ∃ d, m c.id = some (.buffer d) ∧ d.Into dims
          ∧ Dense.Matches dims.prod (d.dense v) (c.dense v) := by
        intro c hc
        obtain ⟨d, hd, -, hmoved⟩ := hm c hc
        obtain ⟨cdims, hc⟩ := h.leaf_into hb hop hc
        exact ⟨d, hd, (hc.reshaped hmoved hinto.shape).1, hc.matches_reshaped hmoved hinto.shape v⟩
      constructor
      · refine (hpointwise.matches_substitute fun c hc => ?_).trans hop_matches
        obtain ⟨d, hd, -, hmatches⟩ := hleaf c hc
        rw [standsFor, hd, Option.getD_some, dense_buffer]
        exact hmatches
      · intro c hc
        obtain ⟨e, he, hc⟩ := mem_leaves_substitute.mp hc
        obtain ⟨d, hd, hinto', -⟩ := hleaf e he
        rw [hd, Option.getD_some, leaves_buffer, List.mem_singleton] at hc
        exact ⟨dims, hc ▸ hinto'⟩

/-! ## Bases -/

/-- The handle on a base that was added shows a tensor with the lanes of the base. -/
theorem Graph.Added.shows_stored {op : Tree α} {dtype : DType} {device : String} {config : Config}
    {x : Dense α} (hadded : Added W g op (.ofNats x.dims) dtype device config W' b g')
    (hle : x.dims.prod ≤ 2 ^ 63) (hdtype : dtype = x.dtype) {l : Nat → α}
    (hl : ∀ i < x.dims.prod, l i = x.lane i) (v : Valuation α) :
    b.Shows (Function.update v g.next l) (.stored config x) := by
  obtain ⟨hinto, hdtype', hconfig, htracker, hlane⟩ :=
    hadded.shows (Shape.static?_ofNats x.dims) hle v l
  refine ⟨htracker, hconfig, hinto, hdtype'.trans hdtype, fun i hi => ?_⟩
  exact (hlane i hi).trans (hl i hi)

/-- A base that is added shows the tensor that its operation makes. -/
theorem Graph.Meaningful.shows_added (fixed : Nat → Prop) (h : Meaningful devices (W, v) g)
    {op : Tree α} {x : Dense α} {device : String} {config : Config}
    (hadded : Added W g op (.ofNats x.dims) x.dtype device config W' b g')
    (hle : x.dims.prod ≤ 2 ^ 63) (hserved : devices.Serves device)
    (hleaves : ∀ c ∈ op.leaves, ∃ dims, c.Into dims) {l : Nat → α}
    (hl : ∀ i < x.dims.prod, l i = x.lane i) (hround : ∀ i, Lane.round x.dtype (l i) = l i)
    (hmeans : (op.issuedFor g.next).Means (Function.update v g.next l)
      (g.nextBase (.ofNats x.dims) x.dtype device config)) :
    ∃ v', Progress devices fixed (W, v) g (W', v') g' ∧ W'.Lists b
      ∧ b.Shows v' (.stored config x) := by
  have haddressable : (Shape.ofNats x.dims).Addressable := ⟨_, Shape.elements?_ofNats _, hle⟩
  exact ⟨_, h.added hadded haddressable hserved hleaves hround hmeans, hadded.lists,
    hadded.shows_stored hle rfl hl v⟩

/-- A base that a kernel is to compute shows what its operation means. -/
theorem Graph.Meaningful.shows_computed [LawfulLane α] (fixed : Nat → Prop)
    (h : Meaningful devices (W, v) g) {op : Tree α} {x : Dense α} {device : String} {config : Config}
    (hadded : Added W g op (.ofNats x.dims) x.dtype device config W' b g')
    (hle : x.dims.prod ≤ 2 ^ 63) (hserved : devices.Serves device)
    (hleaves : ∀ c ∈ op.leaves, ∃ dims, c.Into dims) {code : Opcode} (hcode : op.code? = some code)
    (hload : code.isLoad = false) (hmatches : Dense.Matches x.dims.prod (op.dense v) x) :
    ∃ v', Progress devices fixed (W, v) g (W', v') g' ∧ W'.Lists b
      ∧ b.Shows v' (.stored config x) := by
  have hload' : op.codeIs Opcode.isLoad = false := by
    rw [Tree.codeIs, hcode, Option.any_some, hload]
  have haddressable : (Shape.ofNats x.dims).Addressable := ⟨_, Shape.elements?_ofNats _, hle⟩
  have htype := hadded.computes.form.type_eq hload'
  exact ⟨_, h.added_kernel hadded haddressable hserved hleaves hload' hcode htype, hadded.lists,
    hadded.shows_stored hle rfl hmatches.lane v⟩

/-! ## Loads -/

/-- A load that makes the lanes `l` shows a tensor of these lanes. -/
theorem Buffer.shows_load (h : Meaningful devices (W, v) g) {sources : List Buffer}
    (hsources : ∀ b ∈ sources, W.Lists b) (hinto : ∀ b ∈ sources, ∃ dims, b.Into dims)
    {op : LoadOp} {arg : Arg α} {device : String} {config : Config} {x : Dense α}
    (hle : x.dims.prod ≤ 2 ^ 63) (hserved : devices.Serves device) {l : Nat → α}
    (hl : ∀ i < x.dims.prod, l i = x.lane i) (hround : ∀ i, Lane.round x.dtype (l i) = l i)
    (hmeans : (Tree.node (.load op) arg (some g.next) (sources.map .buffer)).Means
      (Function.update v g.next l) (g.nextBase (.ofNats x.dims) x.dtype device config)) :
    Build.Shows devices fixed (W, v) g
      (load op (.ofNats x.dims) x.dtype device arg sources config) (some (.stored config x)) := by
  refine (sat_load h.1 hsources ..).imp ?_ ?_
  · rintro c g' ⟨W', hadded⟩
    have hleaves : ∀ b ∈ (Tree.node (.load op) arg none (sources.map .buffer)).leaves,
        ∃ dims, b.Into dims := fun b hb => hinto b (by simpa using hb)
    obtain ⟨v', hprogress, hlist, hshows⟩ :=
      h.shows_added fixed hadded hle hserved hleaves hl hround hmeans
    exact ⟨(W', v'), hprogress, hlist, _, rfl, hshows⟩
  · rintro _ _ ⟨rfl, -⟩
    exact ⟨trivial, (W, v), h.refl⟩

variable [LawfulLane α]

theorem Buffer.shows_empty (h : Meaningful devices (W, v) g) {dims : List Nat}
    (hle : dims.prod ≤ 2 ^ 63) (dtype : DType) {device : String} (hserved : devices.Serves device)
    (arg : Arg α) (config : Config) :
    Build.Shows devices fixed (W, v) g (load .empty (.ofNats dims) dtype device arg [] config)
      (some (.empty dims dtype config)) := by
  refine shows_load (x := ⟨dims, dtype, fun _ => Lane.round dtype Lane.zero⟩)
    (l := fun _ => Lane.round dtype Lane.zero) h (by simp) (by simp) hle hserved
    (fun _ _ => rfl) (fun _ => ?_) (.empty fun i => ?_)
  · exact LawfulLane.round_round ..
  · exact update_lane ..

theorem Buffer.shows_rand (h : Meaningful devices (W, v) g) {dims : List Nat}
    (hle : dims.prod ≤ 2 ^ 63) (dtype : DType) {device : String} (hserved : devices.Serves device)
    (seed : UInt64) (config : Config) :
    Build.Shows devices fixed (W, v) g
      (load .rand (.ofNats dims) dtype device (.seed seed) [] config)
      (some (.rand dims dtype seed config)) := by
  let l (i : Nat) : α := Lane.round dtype (Tensor.randomLane seed dims.prod i)
  refine shows_load (x := ⟨dims, dtype, l⟩) (l := l) h (by simp) (by simp) hle hserved
    (fun _ _ => rfl) (fun _ => ?_) (.rand (Shape.elements?_ofNats dims) fun i => ?_)
  · exact LawfulLane.round_round ..
  · exact update_lane ..

/-- A load that copies a buffer, whether the copy is made on its own or by a kernel. -/
theorem Buffer.shows_copyLoad (h : Meaningful devices (W, v) g) (hb : W.Lists b)
    (hshows : b.Shows v t) {op : LoadOp} (hop : op = .copy ∨ op = .contiguous) {device : String}
    (hserved : devices.Serves device) :
    Build.Shows devices fixed (W, v) g (load op b.shape b.dtype device .none [b] b.config)
      (some t.copy) := by
  obtain ⟨n, -, ht⟩ := hshows.into
  have hshape := Shape.eq_ofNats hshows.into.shape
  have hdtype : b.dtype = t.dense.dtype := hshows.lanes.dtype
  have hround := h.round_dense hb
  have hdense : b.dense (Function.update v g.next (b.dense v).lane) = b.dense v :=
    Buffer.dense_congr (Function.update_of_ne (Nat.ne_of_lt (h.1.base_lt hb)) ..)
  rw [hshape, hdtype, hshows.config]
  refine shows_load (x := t.dense) (l := (b.dense v).lane) h (by simpa using hb)
    (by simpa using ⟨_, hshows.into⟩) ht.addressable hserved hshows.lanes.lane
    (fun i => hdtype ▸ hround i) ?_
  refine .copy hop hshape hdtype fun i => ?_
  rw [hdense]
  exact update_lane ..

theorem Buffer.shows_copyTo (h : Meaningful devices (W, v) g) (hb : W.Lists b)
    (hshows : b.Shows v t) {device : String} (hserved : devices.Serves device) :
    Build.Shows devices fixed (W, v) g (b.copyTo device) (some t.copy) :=
  shows_copyLoad h hb hshows (.inl rfl) hserved

/-- A buffer that covers its base densely is its own dense copy. -/
theorem Buffer.shows_contiguous (fixed : Nat → Prop) (h : Meaningful devices (W, v) g) (hb : W.Lists b)
    (hshows : b.Shows v t) :
    Build.Shows devices fixed (W, v) g b.contiguous (some t.copy) := by
  rw [contiguous]
  split
  · next hdense =>
    refine World.keeps_pure h ⟨hb, _, rfl, ?_⟩
    have hcontiguous : b.tracker.contiguous = true := by
      simp only [isContiguous, Bool.and_eq_true] at hdense
      exact hdense.1
    refine ⟨?_, hshows.config, hshows.into, hshows.lanes⟩
    rw [Tracker.eq_ofShape hcontiguous]
    exact congrArg Tracker.ofShape (Shape.eq_ofNats hshows.into.shape)
  · exact shows_copyLoad h hb hshows (.inr rfl) (h.served hb)

/-! ## Elementwise operations -/

omit [LawfulLane α] in
/-- An elementwise operation on what stands for operands of one shape matches the operation on the
tensors that the operands show. -/
theorem Tree.Stands.matches_pointwise (h : Meaningful devices (W, v) g) {bs : List Buffer}
    (hbs : ∀ c ∈ bs, W.Lists c) {dims : List Nat} (hinto : ∀ c ∈ bs, c.Into dims)
    {sources : List (Tree α)} (hsources : List.Forall₂ (fun c u => Stands W' g c u) bs sources)
    {ts : List (Tensor α)} (hshows : List.Forall₂ (fun c t => c.Shows v t) bs ts) (code : Opcode)
    (arg : Arg α) :
    Dense.Matches dims.prod (.pointwise code arg (sources.map (dense v)))
      (.pointwise code arg (ts.map Tensor.dense)) := by
  have hall : ∀ c ∈ bs, c ∈ bs := fun _ hc => hc
  have hoperands : List.Forall₂ (Dense.Matches dims.prod) (sources.map (dense v))
      (bs.map (Buffer.dense v)) := by
    rw [List.forall₂_map_left_iff, List.forall₂_map_right_iff]
    refine ((List.forall₂_and_left _ _).mpr ⟨hall, hsources⟩).flip.imp ?_
    rintro u c ⟨hc, hu⟩
    exact (hu.meaning h (hbs c hc) (hinto c hc)).1
  have htensors : List.Forall₂ (Dense.Matches dims.prod) (bs.map (Buffer.dense v))
      (ts.map Tensor.dense) := by
    rw [List.forall₂_map_left_iff, List.forall₂_map_right_iff]
    refine ((List.forall₂_and_left _ _).mpr ⟨hall, hshows⟩).imp ?_
    rintro c t ⟨hc, ht⟩
    have hdims : t.dims = dims := ht.into.eq (hinto c hc)
    exact hdims ▸ ht.lanes
  exact (Dense.matches_pointwise hoperands code arg).trans
    (Dense.matches_pointwise htensors code arg)

omit [LawfulLane α] in
/-- The element type of an elementwise operation is that of the operation on the tensors. -/
theorem Tensor.dtype_elementwise {others : List Buffer} {ts : List (Tensor α)}
    (hshows : List.Forall₂ (fun c t => c.Shows v t) (b :: others) (t :: ts)) {code : Opcode}
    {arg : Arg α} {dtype : DType} (hcode : code.isElementwise = true)
    (harity : code.arity = some (b :: others).length)
    (h : Buffer.resultType b code (b :: others) arg = .ok dtype) :
    (t.elementwise code ts arg).dense.dtype = dtype := by
  have htypes : ((t :: ts).map Tensor.dense).map Dense.dtype = (b :: others).map Buffer.dtype := by
    rw [List.map_map, eq_comm, ← List.forall₂_eq_eq_eq, List.forall₂_map_left_iff,
      List.forall₂_map_right_iff]
    exact hshows.imp fun c t' hc => hc.lanes.dtype
  refine Dense.dtype_pointwise ?_
  rw [htypes]
  exact Buffer.nodeType_of_resultType hcode harity h

theorem Buffer.shows_elementwise (h : Meaningful devices (W, v) g) {others : List Buffer}
    (hbs : ∀ c ∈ b :: others, W.Lists c) {ts : List (Tensor α)}
    (hshows : List.Forall₂ (fun c t => c.Shows v t) (b :: others) (t :: ts)) (held : List Buffer)
    (code : Opcode) (arg : Arg α) :
    Build.Shows devices fixed (W, v) g (b.elementwise held code others arg)
      (some (t.elementwise code ts arg)) := by
  refine (sat_elementwise h.1 hbs held code arg).imp ?_ ?_
  · rintro c g' ⟨hmatch, W₁, g₁, sources, dtype, W', hviewed, hresult, hsources, hadded⟩
    have hprogress : Progress devices fixed (W, v) g (W₁, v) g₁ := h.viewed hviewed
    simp only [Mismatched, not_or, not_exists, not_and, Bool.not_eq_false, not_not] at hmatch
    obtain ⟨hcode, harity, hshapes, -⟩ := hmatch
    have hb : b.Shows v t := (List.forall₂_cons.mp hshows).1
    obtain ⟨n, -, ht⟩ := hb.into
    -- the operands have one shape
    have hinto : ∀ c ∈ b :: others, c.Into t.dims := by
      intro c hc
      obtain ⟨t', -, hc'⟩ := exists_of_forall₂_left hshows hc
      have hshape : c.shape = b.shape := by
        rcases List.mem_cons.mp hc with rfl | hc
        · rfl
        · exact hshapes c hc
      have hdims := hc'.into.shape
      rw [hshape, hb.into.shape] at hdims
      exact Option.some.inj hdims ▸ hc'.into
    have hleaves : ∀ d ∈ (Tree.node code arg none sources).leaves, ∃ dims, d.Into dims := by
      intro d hd
      rw [Tree.leaves_node, List.mem_flatMap] at hd
      obtain ⟨u, hu, hd⟩ := hd
      obtain ⟨c, hc, hstands⟩ := exists_of_forall₂_left hsources.flip hu
      exact (hstands.meaning h (hbs c hc) (hinto c hc)).2 d hd
    have hmatches : Dense.Matches t.dims.prod ((Tree.node code arg none sources).dense v)
        (t.elementwise code ts arg).dense := by
      rw [Tree.dense_node, Dense.node_of_isElementwise hcode]
      exact Tree.Stands.matches_pointwise h hbs hinto hsources hshows code arg
    rw [Shape.eq_ofNats hb.into.shape, ← Tensor.dtype_elementwise hshows hcode harity hresult,
      hb.config] at hadded
    obtain ⟨v', hprogress', hlist, hc⟩ := hprogress.meaningful.shows_computed fixed
      (x := (t.elementwise code ts arg).dense) hadded ht.addressable
      (h.served (hbs b List.mem_cons_self)) hleaves rfl (Opcode.isLoad_of_isElementwise hcode) hmatches
    exact ⟨(W', v'), hprogress.trans hprogress', hlist, _, rfl, hc⟩
  · rintro _ _ ⟨⟨W', hviewed⟩, -⟩
    exact ⟨trivial, (W', v), h.viewed hviewed⟩

end TensorGraph
