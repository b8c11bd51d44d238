import TensorGraph.Proofs.Kernel.Check
import TensorGraph.Proofs.Meaning.Tree
import TensorGraph.Proofs.Tracker.Calm
/-!
# What kernels compute

A kernel whose reads find the lanes of the bases computes what the tree it was made from means, at
every position. Nothing stops it but a place that cannot be found inside the words.

- `Kernel.Gives`: an evaluation with a result, unless it is stopped.
- `Kernel.Computes`: a kernel that computes a dense tensor.
- `Tree.Shaped.exists_kernel`: a tree whose leaves are resolved is a kernel that computes the tree.
- `Kernel.run_gives`, `Kernel.run_eq`: running such a kernel.
-/

namespace TensorGraph

variable {α : Type} [Lane α]

namespace Kernel

/-! ## Evaluations that may be stopped -/

/-- The evaluation gives `a`, or it is stopped, which nothing does if it is `calm`. -/
inductive Gives {β : Type} (calm : Prop) (a : β) : Except Fault β → Prop
  /-- The result. -/
  | met : Gives calm a (.ok a)
  /-- A number leaves the words. -/
  | stopped (h : ¬calm) : Gives calm a (.error .overflow)

namespace Gives

variable {β γ : Type} {calm : Prop} {a : β} {b : γ} {r : Except Fault β}

theorem eq_ok (h : Gives calm a r) (hcalm : calm) : r = .ok a := by
  cases h with
  | met => rfl
  | stopped h => exact absurd hcalm h

theorem bind {f : β → Except Fault γ} (h : Gives calm a r) (hf : Gives calm b (f a)) :
    Gives calm b (r >>= f) := by
  cases h with
  | met => exact hf
  | stopped h => exact .stopped h

theorem map (f : β → γ) (h : Gives calm a r) : Gives calm (f a) (f <$> r) := h.bind .met

theorem mapM {f : β → Except Fault γ} {f' : β → γ} {l : List β}
    (h : ∀ b ∈ l, Gives calm (f' b) (f b)) : Gives calm (l.map f') (l.mapM f) := by
  induction l with
  | nil => exact .met
  | cons b l ih =>
    obtain ⟨hb, hl⟩ := List.forall_mem_cons.mp h
    rw [List.mapM_cons]
    exact hb.bind ((ih hl).bind .met)

theorem foldlM {f : β → Except Fault γ} {f' : β → γ} {F : γ → γ → γ} {l : List β}
    (h : ∀ b ∈ l, Gives calm (f' b) (f b)) (acc : γ) :
    Gives calm (l.foldl (fun acc b => F acc (f' b)) acc)
      (l.foldlM (fun acc b => do return F acc (← f b)) acc) := by
  induction l generalizing acc with
  | nil => exact .met
  | cons b l ih =>
    obtain ⟨hb, hl⟩ := List.forall_mem_cons.mp h
    have hstep : Gives calm (F acc (f' b)) (do return F acc (← f b)) := hb.bind .met
    rw [List.foldlM_cons]
    exact hstep.bind (ih hl _)

end Gives

theorem locate_of_find {tracker : Tracker} {flat : Nat} {place : Option Nat}
    (h : find tracker flat = .ok place) : tracker.locate flat = place := by
  rw [find, Tracker.lookup] at h
  split at h
  · exact Except.ok.inj h
  · cases h

/-- A place is found unless it is too far away. -/
theorem find_gives {calm : Prop} {tracker : Tracker} {flat : Nat}
    (h : calm → tracker.lookup flat = .ok (tracker.locate flat)) :
    Gives calm (tracker.locate flat) (find tracker flat) := by
  rw [find, Tracker.lookup]
  split
  · exact .met
  · next hfits =>
    refine .stopped fun hcalm => ?_
    have hlookup := h hcalm
    rw [Tracker.lookup, if_neg hfits] at hlookup
    cases hlookup

/-! ## Kernels that compute tensors -/

/-- What a kernel evaluates to is rounded to its type. -/
theorem round_eval [LawfulLane α] {lanes : Array (Array α)} {k : Kernel α} {i : Nat} {a : α}
    (h : k.eval lanes i = .ok a) : Lane.round k.dtype a = a := by
  cases k with
  | read input tracker extents type =>
    rw [eval] at h
    obtain ⟨place, -, h⟩ := bind_eq_ok.mp h
    cases place with
    | some place =>
      obtain ⟨b, -, rfl⟩ := map_eq_ok.mp h
      exact LawfulLane.round_round _ _
    | none =>
      rw [← Except.ok.inj h]
      exact LawfulLane.round_round _ _
  | ternary op =>
    cases op with
    | mulAcc =>
      rw [eval] at h
      simp only [bind_eq_ok, pure_eq_ok, Except.ok.injEq] at h
      obtain ⟨-, -, -, -, -, -, rfl⟩ := h
      exact LawfulLane.round_round _ _
    | select =>
      rw [eval] at h
      obtain ⟨c, -, h⟩ := bind_eq_ok.mp h
      split at h <;> obtain ⟨b, -, h⟩ := bind_eq_ok.mp h <;> rw [← Except.ok.inj h] <;>
        exact LawfulLane.round_round _ _
  | _ =>
    rw [eval] at h
    simp only [bind_eq_ok, pure_eq_ok, Except.ok.injEq] at h
    grind [LawfulLane.round_round, dtype]

/-- On the inputs `lanes` the kernel computes `x`, unless it is stopped, which nothing does if it is
`calm`. -/
structure Computes (calm : Prop) (lanes : Array (Array α)) (k : Kernel α) (x : Dense α) : Prop where
  /-- The extents are the same. -/
  dims : k.dims = x.dims
  /-- The types are the same. -/
  dtype : k.dtype = x.dtype
  /-- Every element is computed. -/
  eval : ∀ i < x.dims.prod, Gives calm (x.lane i) (k.eval lanes i)

variable {calm : Prop} {lanes : Array (Array α)} {n : Nat}

theorem Computes.eval_eq {k : Kernel α} {x : Dense α} (h : k.Computes True lanes x) {i : Nat}
    (hi : i < x.dims.prod) : k.eval lanes i = .ok (x.lane i) := (h.eval i hi).eq_ok trivial

/-! ## Operations -/

section Elementwise

variable {arg : Arg α} {x y z : Dense α} {k l m : Kernel α} {d : DType}

theorem ofNode_unary {op : UnaryOp} (htype : Tree.nodeType (.unary op) arg [x.dtype] = some d)
    (hk : k.Computes calm lanes x) : ∃ k', ofNode n (.unary op) arg [k] = .ok k'
      ∧ k'.Computes calm lanes (Dense.pointwise (.unary op) arg [x]) := by
  have htype' : Tree.nodeType (.unary op) arg [k.dtype] = some d := by
    rw [hk.dtype]
    exact htype
  refine ⟨unary op d k, ofNode_eq_ok.mpr (.unary htype'), hk.dims,
    (Dense.dtype_pointwise htype).symm, fun i hi => ?_⟩
  have hi : i < x.dims.prod := hi
  rw [eval, Dense.lane_pointwise htype]
  exact (hk.eval i hi).bind .met

theorem ofNode_binary {op : BinaryOp}
    (htype : Tree.nodeType (.binary op) arg [x.dtype, y.dtype] = some d) (hxy : y.dims = x.dims)
    (hk : k.Computes calm lanes x) (hl : l.Computes calm lanes y) :
    ∃ k', ofNode n (.binary op) arg [k, l] = .ok k'
      ∧ k'.Computes calm lanes (Dense.pointwise (.binary op) arg [x, y]) := by
  have hd : x.dtype.wider y.dtype = d := Option.some.inj htype
  have htypes : k.dtype.wider l.dtype = d := by rw [hk.dtype, hl.dtype, hd]
  refine ⟨binary op _ k l, rfl, hk.dims, htypes.trans (Dense.dtype_pointwise htype).symm,
    fun i hi => ?_⟩
  have hi : i < x.dims.prod := hi
  rw [eval, htypes, Dense.lane_pointwise htype]
  exact (hk.eval i hi).bind ((hl.eval i (hxy ▸ hi)).bind .met)

theorem ofNode_ternary {op : TernaryOp}
    (htype : Tree.nodeType (.ternary op) arg [x.dtype, y.dtype, z.dtype] = some d)
    (hxy : y.dims = x.dims) (hxz : z.dims = x.dims) (hk : k.Computes calm lanes x)
    (hl : l.Computes calm lanes y) (hm : m.Computes calm lanes z) :
    ∃ k', ofNode n (.ternary op) arg [k, l, m] = .ok k'
      ∧ k'.Computes calm lanes (Dense.pointwise (.ternary op) arg [x, y, z]) := by
  have hd : (x.dtype.wider y.dtype).wider z.dtype = d := Option.some.inj htype
  have htypes : (k.dtype.wider l.dtype).wider m.dtype = d := by
    rw [hk.dtype, hl.dtype, hm.dtype, hd]
  refine ⟨ternary op _ k l m, rfl, hk.dims, htypes.trans (Dense.dtype_pointwise htype).symm,
    fun i hi => ?_⟩
  have hi : i < x.dims.prod := hi
  have hk' := hk.eval i hi
  have hl' := hl.eval i (hxy ▸ hi)
  have hm' := hm.eval i (hxz ▸ hi)
  rw [Dense.lane_pointwise htype]
  cases op with
  | mulAcc =>
    rw [eval, htypes]
    exact hk'.bind (hl'.bind (hm'.bind .met))
  | select =>
    -- only the operand that the condition chooses is evaluated
    rw [eval, htypes]
    refine hk'.bind ?_
    simp only [Opcode.compute, List.map_cons, List.map_nil]
    split
    · exact hl'.bind .met
    · exact hm'.bind .met

end Elementwise

/-- An elementwise operation on kernels that compute tensors of the same extents computes the
operation on the tensors. -/
theorem ofNode_pointwise {code : Opcode} {arg : Arg α} {xs : List (Dense α)} {ks : List (Kernel α)}
    {d : DType} (hcode : code.isElementwise = true) (harity : code.arity = some xs.length)
    (htype : Tree.nodeType code arg (xs.map Dense.dtype) = some d) {dims : List Nat}
    (hdims : ∀ x ∈ xs, x.dims = dims)
    (h : List.Forall₂ (fun x k => Computes calm lanes k x) xs ks) :
    ∃ k, ofNode n code arg ks = .ok k ∧ k.Computes calm lanes (Dense.pointwise code arg xs) := by
  have hsame : ∀ x ∈ xs, ∀ y ∈ xs, y.dims = x.dims := fun x hx y hy =>
    (hdims y hy).trans (hdims x hx).symm
  cases code with
  | load => cases hcode
  | reduce => cases hcode
  | leaf => cases hcode
  | unary op =>
    obtain ⟨x, rfl⟩ : ∃ x, xs = [x] := List.length_eq_one_iff.mp (Option.some.inj harity).symm
    match ks, h with
    | [_], .cons hk .nil => exact ofNode_unary htype hk
  | binary op =>
    obtain ⟨x, y, rfl⟩ : ∃ x y, xs = [x, y] :=
      List.length_eq_two.mp (Option.some.inj harity).symm
    match ks, h with
    | [_, _], .cons hk (.cons hl .nil) =>
      exact ofNode_binary htype (hsame x (by simp) y (by simp)) hk hl
  | ternary op =>
    obtain ⟨x, y, z, rfl⟩ : ∃ x y z, xs = [x, y, z] :=
      List.length_eq_three.mp (Option.some.inj harity).symm
    match ks, h with
    | [_, _, _], .cons hk (.cons hl (.cons hm .nil)) =>
      exact ofNode_ternary htype (hsame x (by simp) y (by simp)) (hsame x (by simp) z (by simp))
        hk hl hm

/-- A reduction of a kernel that computes a tensor computes the reduction of the tensor. -/
theorem ofNode_reduce (op : ReduceOp) {shape : Shape} {old new : List Nat} {x : Dense α}
    {k : Kernel α} (hold : x.dims = old) (hshape : shape.static? = some new)
    (hlength : old.length = new.length) (h : k.Computes calm lanes x) :
    ∃ k', ofNode n (.reduce op) (.shape shape) [k] = .ok k'
      ∧ k'.Computes calm lanes (Dense.reduce op new x) := by
  refine ⟨reduce op new k.dtype k, ?_, rfl, h.dtype, fun i hi => ?_⟩
  · refine ofNode_eq_ok.mpr (.reduce hshape ?_)
    rw [h.dims, hold, hlength]
  · have hreads : ∀ j ∈ reads k.dims new i, Gives calm (x.lane j) (k.eval lanes j) := by
      intro j hj
      rw [h.dims, hold] at hj
      exact h.eval j (hold ▸ lt_of_mem_reads hlength hi hj)
    have htotal := Gives.foldlM (F := Lane.fold op) hreads (Lane.start op)
    rw [h.dims] at htotal
    rw [eval, h.dims, h.dtype]
    exact htotal.bind .met

end Kernel

/-! ## Trees -/

/-- A tree whose leaves are resolved to kernels that compute them is a kernel that computes what the
tree means. -/
theorem Tree.Shaped.exists_kernel {v : Valuation α} {t : Tree α} {dims : List Nat} {calm : Prop}
    {m : Nat → Option (Tree α)} {lanes : Array (Array α)} {n : Nat} (h : t.Shaped dims)
    {d : DType} (htype : t.type = some d)
    (hm : ∀ b ∈ t.leaves, ∃ k, Kernel.ofTree n (standsFor m b) = .ok k
      ∧ k.Computes calm lanes (b.dense v)) :
    ∃ k, Kernel.ofTree n (t.substitute m) = .ok k ∧ k.Computes calm lanes (t.dense v) := by
  induction h generalizing d with
  | buffer =>
    rw [dense_buffer]
    exact hm _ (by simp)
  | @node dims code arg issuer sources hcode harity h ih =>
    rw [type_node, Option.bind_eq_some_iff] at htype
    obtain ⟨ds, hds, htype⟩ := htype
    rw [types_eq_some] at hds
    have hsource : ∀ u ∈ sources, ∃ k, Kernel.ofTree n (u.substitute m) = .ok k
        ∧ k.Computes calm lanes (u.dense v) := by
      intro u hu
      obtain ⟨e, -, he⟩ := exists_of_forall₂_left hds hu
      refine ih u hu he fun b hb => hm b ?_
      rw [leaves_node, List.mem_flatMap]
      exact ⟨u, hu, hb⟩
    obtain ⟨ks, hks⟩ := exists_forall₂ hsource
    have htypes : (sources.map (dense v)).map Dense.dtype = ds := by
      rw [List.map_map, ← List.forall₂_eq_eq_eq, List.forall₂_map_left_iff]
      exact hds.imp fun u d hu => dtype_dense hu
    have hcomputes : List.Forall₂ (fun x k => k.Computes calm lanes x) (sources.map (dense v)) ks := by
      rw [List.forall₂_map_left_iff]
      exact hks.imp fun u k hk => hk.2
    -- the check of the node passes, as the sources have the extents and types that it asks for
    obtain ⟨k, hk, hk'⟩ := Kernel.ofNode_pointwise (n := n) hcode (by rw [harity, List.length_map])
      (htypes ▸ htype) (fun x hx => by
        obtain ⟨u, hu, rfl⟩ := List.mem_map.mp hx
        exact (h u hu).dims_dense v) hcomputes
    rw [substitute_node, dense_node, Dense.node_of_isElementwise hcode]
    refine ⟨k, Kernel.ofTree_node_eq_ok.mpr ⟨ks, ?_, hk⟩, hk'⟩
    rw [List.forall₂_map_left_iff]
    exact hks.imp fun u k hk => hk.1
  | @reduce old new op shape issuer t h hshape hfold ih =>
    rw [type_node, Option.bind_eq_some_iff] at htype
    obtain ⟨ds, hds, -⟩ := htype
    obtain ⟨e, -, he⟩ :=
      exists_of_forall₂_left (types_eq_some.mp hds) (List.mem_singleton_self t)
    obtain ⟨k, hk, hcomputes⟩ := ih he fun b hb => hm b (by simpa using hb)
    obtain ⟨k', hk', hcomputes'⟩ :=
      Kernel.ofNode_reduce (n := n) op (h.dims_dense v) hshape hfold.length_eq hcomputes
    rw [substitute_node, dense_node]
    refine ⟨k', Kernel.ofTree_node_eq_ok.mpr ⟨[k], .cons hk .nil, hk'⟩, ?_⟩
    change k'.Computes calm lanes (Dense.reduce op (shape.static?.getD []) (t.dense v))
    rw [hshape]
    exact hcomputes'

namespace Kernel

variable {v : Valuation α} {b : Buffer} {dims : List Nat} {calm : Prop} {lanes : Array (Array α)}
  {n slot : Nat}

/-! ## Leaves -/

/-- Once its views are merged, a tracker gives the place of a position, unless it is too far away. -/
theorem find_simplify_gives {t : Tracker} (ht : t.Proper) (hs : t.shape.static? = some dims)
    (hle : dims.prod ≤ 2 ^ 63) (hfound : calm → t.Found dims) {flat : Nat} (hflat : flat < dims.prod) :
    Gives calm (t.locate flat) (find t.simplify flat) := by
  have hfind := find_gives fun hcalm => hfound hcalm flat hflat
  rwa [ht.locate_simplify hs hflat (Nat.lt_of_lt_of_le hflat hle)] at hfind

/-- The read of a slot that holds the lanes of a base computes what a buffer of the base shows. -/
theorem ofTree_slot (ht : b.tracker.Proper) (hs : b.shape.static? = some dims)
    (hle : dims.prod ≤ 2 ^ 63) (hfound : calm → b.tracker.Found dims) (hslot : slot < n)
    (hlanes : ∀ flat < dims.prod, ∀ place, b.tracker.locate flat = some place →
      ∃ x, fetch lanes slot place = .ok x ∧ Lane.round b.dtype x = v b.base.id place) :
    ∃ k, ofTree n (.node (.leaf .slot) (.slot ⟨slot + 1, b.dtype, b.tracker.simplify⟩) none [])
      = .ok k ∧ k.Computes calm lanes (b.dense v) := by
  have hdims := Buffer.dims_dense hs v
  have hshape := Tracker.static?_simplify hs
  refine ⟨read slot b.tracker.simplify dims b.dtype, ?_, hdims.symm, rfl, fun i hi => ?_⟩
  · exact ofTree_node_eq_ok.mpr ⟨[], .nil, ofNode_eq_ok.mpr (.slot (Nat.succ_pos _) hslot hshape)⟩
  · rw [hdims] at hi
    rw [eval]
    refine (find_simplify_gives ht hs hle hfound hi).bind ?_
    cases hlocate : b.tracker.locate i with
    | none =>
      simp only [Buffer.dense, hlocate, Option.elim_none]
      exact .met
    | some place =>
      obtain ⟨x, hx, hround⟩ := hlanes i hi place hlocate
      simp only [hx, map_ok, hround, Buffer.dense, hlocate, Option.elim_some]
      exact .met

/-- A literal computes what a buffer shows whose base holds the scalar everywhere. -/
theorem ofTree_literal (ht : b.tracker.Proper) (hs : b.shape.static? = some dims)
    (hle : dims.prod ≤ 2 ^ 63) (hfound : calm → b.tracker.Found dims) {value : α}
    (hvalue : ∀ flat < dims.prod, ∀ place, b.tracker.locate flat = some place →
      v b.base.id place = Lane.round b.dtype value) :
    ∃ k, ofTree n (.node (.leaf .literal) (.literal ⟨value, b.dtype, b.tracker.simplify⟩) none [])
      = .ok k ∧ k.Computes calm lanes (b.dense v) := by
  have hdims := Buffer.dims_dense hs v
  have hshape := Tracker.static?_simplify hs
  refine ⟨literal value b.tracker.simplify dims b.dtype, ?_, hdims.symm, rfl, fun i hi => ?_⟩
  · exact ofTree_node_eq_ok.mpr ⟨[], .nil, ofNode_eq_ok.mpr (.literal hshape)⟩
  · rw [hdims] at hi
    rw [eval]
    refine (find_simplify_gives ht hs hle hfound hi).bind ?_
    cases hlocate : b.tracker.locate i with
    | none =>
      simp only [Option.isSome_none, Bool.false_eq_true, if_false, Buffer.dense, hlocate,
        Option.elim_none]
      exact .met
    | some place =>
      simp only [Option.isSome_some, if_true, Buffer.dense, hlocate, Option.elim_some,
        hvalue i hi place hlocate]
      exact .met

/-! ## Runs -/

section Runs

variable {tree : Tree α} {shape : Shape} {blocks : List (Block α)} {lanes : List (Array α)}
  {k : Kernel α} {x : Dense α} (hlanes : blocks.mapM blockLanes = .ok lanes)
  (hk : ofTree blocks.length tree = .ok k) (hx : k.Computes calm lanes.toArray x)
include hx

theorem Computes.elements : Gives calm ((Array.range x.dims.prod).map x.lane)
    ((Array.range x.dims.prod).mapM (k.eval lanes.toArray)) := by
  have hall : ∀ i ∈ (Array.range x.dims.prod).toList,
      Gives calm (x.lane i) (k.eval lanes.toArray i) := fun i hi => hx.eval i (by simpa using hi)
  have hmap := (Gives.mapM hall).map List.toArray
  rwa [← Array.toList_map, Array.toArray_toList, ← Array.mapM_eq_mapM_toList] at hmap

include hlanes hk

/-- A run of a kernel that computes a tensor gives its elements, rounded to the type of the output. -/
theorem run_gives (hshape : shape.static? = some dims) (hprod : x.dims.prod = dims.prod)
    (dtype : DType) : Gives calm (.ofLanes dtype ((Array.range dims.prod).map x.lane))
      (run tree shape dtype blocks) := by
  simp only [run, knownDims_eq_ok.mpr hshape, hlanes, hk, ok_bind, hx.dims, ← hprod]
  rw [if_neg (not_not.mpr rfl)]
  exact hx.elements.bind .met

theorem run_eq_ok (hcalm : calm) (hshape : shape.static? = some dims)
    (hprod : x.dims.prod = dims.prod) (dtype : DType) :
    run tree shape dtype blocks = .ok (.ofLanes dtype ((Array.range dims.prod).map x.lane)) :=
  (run_gives hlanes hk hx hshape hprod dtype).eq_ok hcalm

/-- If nothing stops it, it fails exactly if the output has symbolic extents or another number of
elements. -/
theorem run_eq (hcalm : calm) (shape : Shape) (dtype : DType) : run tree shape dtype blocks = do
      let dims ← knownDims shape
      if x.dims.prod ≠ dims.prod then throw (.elementCount x.dims.prod dims.prod)
      return .ofLanes dtype ((Array.range dims.prod).map x.lane) := by
  simp only [run, hlanes, hk, ok_bind, hx.dims]
  refine bind_congr fun dims => ?_
  split
  · rfl
  · next hcount =>
    rw [← not_not.mp hcount, hx.elements.eq_ok hcalm]
    rfl

end Runs

end Kernel

end TensorGraph
