import Mathlib.Logic.Relation
import TensorGraph.Lane.Whole
import TensorGraph.Proofs.Kernel.Eval
/-!
# Fused kernels and chains of kernels

A kernel of many operations has the result of a chain of kernels: any operation in its tree may be
run alone, and the tree read the result in its place. The operation may stand below reductions,
which read it at positions of their own, and its result is rounded to its own type on the way out,
on the way in and by the read, which is once.

A tree fits its inputs if each node passes the checks of a kernel, the sources of a node have the
same extents, and every leaf finds its places, and every read a lane. Nothing is asked of the arithmetic of lanes, and of
rounding only that doing it again changes nothing. A part is run alone only where a memory holds its
result. None holds more than `2 ^ 63` elements, and of more a dense tracker would no longer find all.

- `Tree.Fits`: trees that run on given lanes.
- `Tree.Swaps`: a tree with another tree in some of the places of a part.
- `Tree.Swaps.exists_kernel`: what is put in the place of a part may be anything that computes the
  same.
- `HostData.Held`: the results that a memory may hold.
- `Job.Detaches`: running a part alone; `Job.Detaches.sound` is the step, `Job.Sound.run_chain` the
  run.
- `Job.Sound.splits`: fused kernels and chains of kernels have the same results.
-/

namespace TensorGraph

variable {α : Type}

/-! ## Trees that fit their inputs -/

/-- The root of the kernel finds the places of its positions, if it is a leaf, and no read misses the
lanes. -/
def Kernel.ReadsInside (lanes : Array (Array α)) : Kernel α → Prop
  | read input tracker extents _ => ∀ i < extents.prod, tracker.lookup i = .ok (tracker.locate i)
    ∧ ∀ place, tracker.locate i = some place → place < (lanes.getD input #[]).size
  | literal _ tracker extents _ => ∀ i < extents.prod, tracker.lookup i = .ok (tracker.locate i)
  | _ => True

/-- Whether the root of a tree is computed from its sources. -/
def Tree.isOperation (t : Tree α) : Bool := t.codeIs fun code => code.isElementwise || code.isReduce

/-- On `n` inputs with the given lanes the tree runs: it is made of reads that stay inside their input,
literals, and operations on sources of the same extents, and it passes the checks of a kernel. -/
inductive Tree.Fits (n : Nat) (lanes : Array (Array α)) : Tree α → Prop
  /-- A read or a literal. -/
  | leaf {op : LeafOp} {arg : Arg α} {issuer : Option Nat} {k : Kernel α}
    (hk : Kernel.ofNode n (.leaf op) arg [] = .ok k) (hinside : k.ReadsInside lanes) :
    Fits n lanes (.node (.leaf op) arg issuer [])
  /-- An elementwise operation or a reduction. -/
  | operation {code : Opcode} {arg : Arg α} {issuer : Option Nat} {sources : List (Tree α)}
    {ks : List (Kernel α)} {k : Kernel α} (hcode : (code.isElementwise || code.isReduce) = true)
    (hsources : ∀ t ∈ sources, Fits n lanes t)
    (hks : List.Forall₂ (fun t k => Kernel.ofTree n t = .ok k) sources ks)
    (hk : Kernel.ofNode n code arg ks = .ok k) (hlevel : ∀ x ∈ ks, ∀ y ∈ ks, x.dims = y.dims) :
    Fits n lanes (.node code arg issuer sources)

/-- The second tree is the first with `u` in some of the places of the part `part`. -/
inductive Tree.Swaps (part u : Tree α) : Tree α → Tree α → Prop
  /-- The part is replaced. -/
  | here : Swaps part u part u
  /-- A tree stays. -/
  | keep (t : Tree α) : Swaps part u t t
  /-- The part is replaced in the sources. -/
  | node {code : Opcode} {arg : Arg α} {issuer : Option Nat} {sources sources' : List (Tree α)}
    (h : List.Forall₂ (Swaps part u) sources sources') :
    Swaps part u (.node code arg issuer sources) (.node code arg issuer sources')

/-- The read of a whole slot that holds elements of type `dtype` densely. -/
def Tree.denseRead (slot : Nat) (dtype : DType) (dims : List Nat) : Tree α :=
  .node (.leaf .slot) (.slot ⟨slot, dtype, .ofShape (.ofNats dims)⟩) none []

namespace Kernel

variable {code : Opcode} {arg : Arg α} {ks ks' : List (Kernel α)} {k k' : Kernel α} {n n' : Nat}

/-! ## Operations -/

/-- A checked operation is elementwise on as many sources as it takes, or it is a reduction of one source
that keeps the number of axes. -/
theorem ofNode_operation (hcode : (code.isElementwise || code.isReduce) = true)
    (h : ofNode n code arg ks = .ok k) :
    (code.isElementwise = true ∧ code.arity = some ks.length)
      ∨ ∃ op shape new x, code = .reduce op ∧ arg = .shape shape ∧ shape.static? = some new
        ∧ ks = [x] ∧ x.dims.length = new.length := by
  cases ofNode_eq_ok.mp h with
  | slot => cases hcode
  | literal => cases hcode
  | reduce hshape hrank => exact .inr ⟨_, _, _, _, rfl, rfl, hshape, rfl, hrank.symm⟩
  | _ => exact .inl ⟨rfl, rfl⟩

variable [Lane α] {lanes lanes' : Array (Array α)} {x y : Dense α} {xs : List (Dense α)}

/-- On sources that compute the same, and be it with other inputs, an operation computes the same. -/
theorem ofNode_congr (n' : Nat) (hcode : (code.isElementwise || code.isReduce) = true)
    (h : ofNode n code arg ks = .ok k) (hlevel : ∀ x ∈ ks, ∀ y ∈ ks, x.dims = y.dims)
    (hks : List.Forall₂ (fun x k => Computes True lanes k x) xs ks)
    (hks' : List.Forall₂ (fun x k => Computes True lanes' k x) xs ks') :
    ∃ k', ofNode n' code arg ks' = .ok k' ∧ k'.Computes True lanes' (Dense.node code arg xs) := by
  rcases ofNode_operation hcode h with
    ⟨helementwise, harity⟩ | ⟨op, shape, new, u, rfl, rfl, hnew, rfl, hlength⟩
  · have htypes : ks.map dtype = xs.map Dense.dtype := by
      rw [← List.forall₂_eq_eq_eq, List.forall₂_map_left_iff, List.forall₂_map_right_iff]
      exact (hks.imp fun x k hk => hk.dtype).flip
    have htype := htypes ▸ nodeType_ofNode h
    rw [← hks.length_eq] at harity
    rw [Dense.node_of_isElementwise helementwise]
    have hdims : ∀ x ∈ xs, x.dims = (xs.head?.map Dense.dims).getD [] := by
      intro x hx
      obtain ⟨v, hv, hxv⟩ := exists_of_forall₂_left hks hx
      cases hks with
      | nil => cases hx
      | @cons _ u _ _ hu _ =>
        exact hxv.dims.symm.trans ((hlevel v hv u List.mem_cons_self).trans hu.dims)
    exact ofNode_pointwise helementwise harity htype hdims hks'
  · obtain ⟨x, hx, rfl⟩ : ∃ x, Computes True lanes u x ∧ xs = [x] := by
      cases hks with
      | cons hx hnil =>
        cases hnil
        exact ⟨_, hx, rfl⟩
    obtain ⟨u', hu', rfl⟩ : ∃ u', Computes True lanes' u' x ∧ ks' = [u'] := by
      cases hks' with
      | cons hu' hnil =>
        cases hnil
        exact ⟨_, hu', rfl⟩
    obtain ⟨k', hk', hcomputes⟩ := ofNode_reduce (n := n') op hx.dims.symm hnew hlength hu'
    refine ⟨k', hk', ?_⟩
    change k'.Computes True lanes' (Dense.reduce op (shape.static?.getD []) x)
    rw [hnew]
    exact hcomputes

/-- What computes one of the tensors that a kernel computes, computes all of them. -/
theorem Computes.transfer (hx : k.Computes True lanes x) (hy : k.Computes True lanes y)
    (hy' : k'.Computes True lanes' y) : k'.Computes True lanes' x where
  dims := hy'.dims.trans (hy.dims.symm.trans hx.dims)
  dtype := hy'.dtype.trans (hy.dtype.symm.trans hx.dtype)
  eval i hi := by
    have hdims : x.dims = y.dims := hx.dims.symm.trans hy.dims
    have hsame := (hx.eval_eq hi).symm.trans (hy.eval_eq (hdims ▸ hi))
    rw [Except.ok.inj hsame]
    exact hy'.eval i (hdims ▸ hi)

/-! ## Leaves -/

omit [Lane α] in
/-- A leaf that is checked with some inputs is checked with more. -/
theorem ofNode_leaf_of_le {op : LeafOp} (h : ofNode n (.leaf op) arg [] = .ok k) (hle : n ≤ n') :
    ofNode n' (.leaf op) arg [] = .ok k := by
  cases ofNode_eq_ok.mp h with
  | slot hpos hslot hshape => exact ofNode_eq_ok.mpr (.slot hpos (hslot.trans hle) hshape)
  | literal => exact h

/-- A leaf that reads inside its input computes a tensor, and the same one where there are more inputs. -/
theorem exists_computes_leaf {op : LeafOp} (h : ofNode n (.leaf op) arg [] = .ok k)
    (hinside : k.ReadsInside lanes) : ∃ x, k.Computes True lanes x
      ∧ ∀ lanes', (∀ i < lanes.size, lanes'.getD i #[] = lanes.getD i #[]) →
        k.Computes True lanes' x ∧ k.ReadsInside lanes' := by
  cases ofNode_eq_ok.mp h with
  | @slot r extents =>
    let input := r.slot - 1
    let lane (i : Nat) : α := (r.tracker.locate i).elim (Lane.round r.dtype Lane.zero)
      fun place => Lane.round r.dtype ((lanes.getD input #[])[place]?.getD Lane.zero)
    have hcomputes (lanes' : Array (Array α)) (hsame : lanes'.getD input #[] = lanes.getD input #[]
        ∨ ∀ i < extents.prod, r.tracker.locate i = none) :
        Computes True lanes' (read input r.tracker extents r.dtype) ⟨extents, r.dtype, lane⟩ := by
      refine ⟨rfl, rfl, fun i hi => ?_⟩
      have hi : i < extents.prod := hi
      obtain ⟨hlookup, hlt⟩ := hinside i hi
      rw [eval]
      refine (find_gives fun _ => hlookup).bind ?_
      simp only [lane]
      cases hlocate : r.tracker.locate i with
      | none => exact .met
      | some place =>
        rcases hsame with hsame | hnone
        · obtain ⟨x, hx⟩ : ∃ x, (lanes.getD input #[])[place]? = some x :=
            ⟨_, Array.getElem?_eq_getElem (hlt place hlocate)⟩
          simp only [fetch, hsame, hx, map_ok, Option.getD_some, Option.elim_some]
          exact .met
        · cases (hnone i hi).symm.trans hlocate
    refine ⟨_, hcomputes lanes (.inl rfl), fun lanes' hextends => ?_⟩
    by_cases hinput : input < lanes.size
    · have hsame := hextends input hinput
      refine ⟨hcomputes lanes' (.inl hsame), fun i hi => ?_⟩
      rw [hsame]
      exact hinside i hi
    · -- nothing is read of an input that is not there
      have hnone : ∀ i < extents.prod, r.tracker.locate i = none := by
        intro i hi
        cases hlocate : r.tracker.locate i with
        | none => rfl
        | some place =>
          have hlt := (hinside i hi).2 place hlocate
          rw [Array.getD_eq_getD_getElem?, Array.getElem?_eq_none (Nat.le_of_not_lt hinput)] at hlt
          exact absurd hlt (Nat.not_lt_zero _)
      refine ⟨hcomputes lanes' (.inr hnone), fun i hi => ⟨(hinside i hi).1, ?_⟩⟩
      intro place hlocate
      cases (hnone i hi).symm.trans hlocate
  | @literal l extents =>
    have hcomputes (lanes' : Array (Array α)) :
        Computes True lanes' (literal l.value l.tracker extents l.dtype) ⟨extents, l.dtype, fun i =>
          Lane.round l.dtype (if (l.tracker.locate i).isSome then l.value else Lane.zero)⟩ := by
      refine ⟨rfl, rfl, fun i hi => ?_⟩
      rw [eval]
      exact (find_gives fun _ => hinside i hi).bind .met
    exact ⟨_, hcomputes lanes, fun lanes' _ => ⟨hcomputes lanes', hinside⟩⟩

end Kernel

namespace Tree

variable [Lane α] {n n' : Nat} {lanes lanes' : Array (Array α)} {t t' part u : Tree α}

/-! ## Trees -/

/-- A tree that fits is a kernel that computes a tensor. -/
theorem Fits.exists_kernel (h : t.Fits n lanes) :
    ∃ k x, Kernel.ofTree n t = .ok k ∧ k.Computes True lanes x := by
  induction h with
  | leaf hk hinside =>
    obtain ⟨x, hx, -⟩ := Kernel.exists_computes_leaf hk hinside
    exact ⟨_, x, Kernel.ofTree_node_eq_ok.mpr ⟨[], .nil, hk⟩, hx⟩
  | @operation code arg issuer sources ks k hcode _ hks hk hlevel ih =>
    have hcomputes : ∀ k ∈ ks, ∃ x, Kernel.Computes True lanes k x := by
      intro k hmem
      obtain ⟨t, ht, hkt⟩ := exists_of_forall₂_right hks hmem
      obtain ⟨k', x, hk', hx⟩ := ih t ht
      obtain rfl : k' = k := Except.ok.inj (hk'.symm.trans hkt)
      exact ⟨x, hx⟩
    obtain ⟨xs, hxs⟩ := exists_forall₂ hcomputes
    obtain ⟨k', hk', hx⟩ := Kernel.ofNode_congr n hcode hk hlevel hxs.flip hxs.flip
    exact ⟨k', _, Kernel.ofTree_node_eq_ok.mpr ⟨ks, hks, hk'⟩, hx⟩

omit [Lane α] in
/-- The parts of a tree that fits fit. -/
theorem Fits.of_mem_nodes (h : t.Fits n lanes) (hu : u ∈ t.nodes) : u.Fits n lanes := by
  induction h with
  | leaf hk hinside =>
    obtain rfl | ⟨s, hs, -⟩ := mem_nodes_node.mp hu
    · exact .leaf hk hinside
    · cases hs
  | operation hcode hsources hks hk hlevel ih =>
    obtain rfl | ⟨s, hs, hu⟩ := mem_nodes_node.mp hu
    · exact .operation hcode hsources hks hk hlevel
    · exact ih s hs hu

/-- Kernels that compute the same tensors as kernels of the same extents have the same extents. -/
theorem level_of_computes {xs : List (Dense α)} {ks ks' : List (Kernel α)}
    (hlevel : ∀ x ∈ ks, ∀ y ∈ ks, x.dims = y.dims)
    (hks : List.Forall₂ (fun x k => Kernel.Computes True lanes k x) xs ks)
    (hks' : List.Forall₂ (fun x k => Kernel.Computes True lanes' k x) xs ks') :
    ∀ x ∈ ks', ∀ y ∈ ks', x.dims = y.dims := by
  have hdims : ∀ k' ∈ ks', ∃ k ∈ ks, k'.dims = k.dims := by
    intro k' hk'
    obtain ⟨x, hx, hcomputes'⟩ := exists_of_forall₂_right hks' hk'
    obtain ⟨k, hk, hcomputes⟩ := exists_of_forall₂_left hks hx
    exact ⟨k, hk, hcomputes'.dims.trans hcomputes.dims.symm⟩
  intro x hx y hy
  obtain ⟨v, hv, hxv⟩ := hdims x hx
  obtain ⟨w, hw, hyw⟩ := hdims y hy
  rw [hxv, hyw, hlevel v hv w hw]

/-- Sources one by one: what the old ones compute, and kernels of the new ones for it. -/
theorem exists_kernels {sources sources' : List (Tree α)} {ks : List (Kernel α)}
    (hks : List.Forall₂ (fun t k => Kernel.ofTree n t = .ok k) sources ks)
    (h : List.Forall₂ (fun t t' => ∃ k x, Kernel.ofTree n t = .ok k ∧ k.Computes True lanes x
      ∧ ∃ k', Kernel.ofTree n' t' = .ok k' ∧ k'.Computes True lanes' x) sources sources') :
    ∃ xs ks', List.Forall₂ (fun x k => Kernel.Computes True lanes k x) xs ks
      ∧ List.Forall₂ (fun x k => Kernel.Computes True lanes' k x) xs ks'
      ∧ List.Forall₂ (fun t k => Kernel.ofTree n' t = .ok k) sources' ks' := by
  induction h generalizing ks with
  | nil =>
    cases hks
    exact ⟨[], [], .nil, .nil, .nil⟩
  | cons hfirst _ ih =>
    cases hks with
    | cons hk hks =>
      obtain ⟨xs, ks', hxs, hxs', hks'⟩ := ih hks
      obtain ⟨k, x, hk₀, hx, k', hk', hx'⟩ := hfirst
      obtain rfl := Except.ok.inj (hk.symm.trans hk₀)
      exact ⟨x :: xs, k' :: ks', .cons hx hxs, .cons hx' hxs', .cons hk' hks'⟩

/-- On more inputs, a tree with something in the place of a part that computes the same fits, and it
computes the same. -/
theorem Swaps.exists_kernel (hle : n ≤ n')
    (hlanes : ∀ i < lanes.size, lanes'.getD i #[] = lanes.getD i #[]) (hu : u.Fits n' lanes')
    (hpart : ∀ k x, Kernel.ofTree n part = .ok k → k.Computes True lanes x →
      ∃ k', Kernel.ofTree n' u = .ok k' ∧ k'.Computes True lanes' x)
    (hswaps : Swaps part u t t') (ht : t.Fits n lanes) {k : Kernel α} {x : Dense α}
    (hk : Kernel.ofTree n t = .ok k) (hx : k.Computes True lanes x) :
    t'.Fits n' lanes' ∧ ∃ k', Kernel.ofTree n' t' = .ok k' ∧ k'.Computes True lanes' x := by
  induction ht generalizing t' k x with
  | @leaf op arg issuer k₀ hk₀ hinside =>
    have hsame : k = k₀ :=
      Except.ok.inj (hk.symm.trans (Kernel.ofTree_node_eq_ok.mpr ⟨[], .nil, hk₀⟩))
    -- a leaf that stays has its input among the more inputs
    have hkept : t' = .node (.leaf op) arg issuer [] → t'.Fits n' lanes'
        ∧ ∃ k', Kernel.ofTree n' t' = .ok k' ∧ k'.Computes True lanes' x := by
      rintro rfl
      obtain ⟨y, hy, hmore⟩ := Kernel.exists_computes_leaf hk₀ hinside
      obtain ⟨hy', hinside'⟩ := hmore lanes' hlanes
      have hk' := Kernel.ofNode_leaf_of_le hk₀ hle
      exact ⟨.leaf hk' hinside', k₀, Kernel.ofTree_node_eq_ok.mpr ⟨[], .nil, hk'⟩,
        (hsame ▸ hx).transfer hy hy'⟩
    cases hswaps with
    | here => exact ⟨hu, hpart k x hk hx⟩
    | keep => exact hkept rfl
    | node h =>
      cases h
      exact hkept rfl
  | @operation code arg issuer sources ks k₀ hcode hsources hks hk₀ hlevel ih =>
    have hsame : k = k₀ :=
      Except.ok.inj (hk.symm.trans (Kernel.ofTree_node_eq_ok.mpr ⟨ks, hks, hk₀⟩))
    -- the node is made again from kernels that compute what its sources computed
    have hnode : ∀ sources', List.Forall₂ (Swaps part u) sources sources' →
        t' = .node code arg issuer sources' → t'.Fits n' lanes'
          ∧ ∃ k', Kernel.ofTree n' t' = .ok k' ∧ k'.Computes True lanes' x := by
      rintro sources' h rfl
      have hstep : List.Forall₂ (fun s s' => s'.Fits n' lanes' ∧ ∃ k x, Kernel.ofTree n s = .ok k
          ∧ k.Computes True lanes x ∧ ∃ k', Kernel.ofTree n' s' = .ok k' ∧ k'.Computes True lanes' x)
          sources sources' := by
        refine (forall₂_mem h).imp ?_
        rintro s s' ⟨hs, -, hswaps⟩
        obtain ⟨k, x, hk, hx⟩ := (hsources s hs).exists_kernel
        obtain ⟨hfits, hkernel⟩ := ih s hs hswaps hk hx
        exact ⟨hfits, k, x, hk, hx, hkernel⟩
      obtain ⟨xs, ks', hxs, hxs', hks'⟩ := exists_kernels hks (hstep.imp fun _ _ h => h.2)
      obtain ⟨k', hk', hcomputes'⟩ := Kernel.ofNode_congr n' hcode hk₀ hlevel hxs hxs'
      obtain ⟨k₁, hk₁, hcomputes⟩ := Kernel.ofNode_congr n hcode hk₀ hlevel hxs hxs
      obtain rfl : k₁ = k₀ := Except.ok.inj (hk₁.symm.trans hk₀)
      refine ⟨.operation hcode ?_ hks' hk' (level_of_computes hlevel hxs hxs'), k',
        Kernel.ofTree_node_eq_ok.mpr ⟨ks', hks', hk'⟩, (hsame ▸ hx).transfer hcomputes hcomputes'⟩
      intro s' hs'
      obtain ⟨s, -, hfits, -⟩ := exists_of_forall₂_right hstep hs'
      exact hfits
    cases hswaps with
    | here => exact ⟨hu, hpart k x hk hx⟩
    | keep => exact hnode sources (List.forall₂_same.mpr fun s _ => .keep s) rfl
    | node h => exact hnode _ h rfl

/-! ## Reading a result back -/

/-- The read of a slot that holds what a kernel has computed fits and computes it again. -/
theorem fits_denseRead [LawfulLane α] {c : Kernel α} {x : Dense α} {lanes : List (Array α)}
    (hx : c.Computes True lanes.toArray x) (hle : c.dims.prod ≤ 2 ^ 63) :
    let lanes' := (lanes ++ [(Array.range c.dims.prod).map x.lane]).toArray
    (denseRead (lanes.length + 1) c.dtype c.dims).Fits (lanes.length + 1) lanes'
      ∧ ∃ k, Kernel.ofTree (lanes.length + 1) (denseRead (lanes.length + 1) c.dtype c.dims) = .ok k
        ∧ k.Computes True lanes' x := by
  intro lanes'
  have hlocate {i : Nat} (hi : i < c.dims.prod) :
      (Tracker.ofShape (.ofNats c.dims)).locate i = some i :=
    Tracker.locate_ofShape (Shape.static?_ofNats _) hle hi
  have hlookup (i : Nat) (hi : i < c.dims.prod) :
      (Tracker.ofShape (.ofNats c.dims)).lookup i = .ok ((Tracker.ofShape (.ofNats c.dims)).locate i) :=
    Tracker.lookup_ofShape (Shape.static?_ofNats _) hle hi
  have hslot : lanes'.getD lanes.length #[] = (Array.range c.dims.prod).map x.lane := by
    simp [lanes']
  have hshape : (Tracker.ofShape (.ofNats c.dims)).shape.static? = some c.dims := by
    rw [Tracker.shape_ofShape, Shape.static?_ofNats]
  have hk : Kernel.ofNode (lanes.length + 1) (.leaf .slot)
      (.slot ⟨lanes.length + 1, c.dtype, .ofShape (.ofNats c.dims)⟩) []
      = .ok (.read lanes.length (.ofShape (.ofNats c.dims)) c.dims c.dtype : Kernel α) :=
    Kernel.ofNode_eq_ok.mpr (.slot (Nat.succ_pos _) (Nat.le_refl _) hshape)
  refine ⟨.leaf hk ?_, _, Kernel.ofTree_node_eq_ok.mpr ⟨[], .nil, hk⟩, hx.dims, hx.dtype, ?_⟩
  · refine fun i hi => ⟨hlookup i hi, fun place hplace => ?_⟩
    obtain rfl : i = place := Option.some.inj ((hlocate hi).symm.trans hplace)
    rw [hslot]
    simpa using hi
  · intro i hi
    have hi' : i < c.dims.prod := hx.dims ▸ hi
    have hfetch : Kernel.fetch lanes' lanes.length i = .ok (x.lane i) := by
      simp only [Kernel.fetch, hslot, Array.getElem?_map, Array.getElem?_range, if_pos hi',
        Option.map_some]
    rw [Kernel.eval]
    refine (Kernel.find_gives fun _ => hlookup i hi').bind ?_
    simp only [hlocate hi', hfetch, map_ok]
    rw [Kernel.round_eval (hx.eval_eq hi)]
    exact .met

end Tree

/-! ## Running parts alone -/

/-- A tree with the blocks of its slots. -/
structure Job (α : Type) where
  /-- The tree. -/
  tree : Tree α
  /-- The blocks of the slots from `1` on. -/
  inputs : List (Block α)

/-- There are no more elements than a memory holds. -/
def HostData.Held (data : HostData α) : Prop := data.size ≤ 2 ^ 63

namespace Job

variable [Lane α] {j j' : Job α} {part : Tree α}

/-- Runs a job for an output. -/
def run (j : Job α) (shape : Shape) (dtype : DType) : Except Kernel.Fault (HostData α) :=
  Kernel.run j.tree shape dtype j.inputs

/-- The inputs of a job can be read, and its tree fits them. -/
def Sound (j : Job α) : Prop :=
  ∃ lanes, j.inputs.mapM Kernel.blockLanes = .ok lanes ∧ j.tree.Fits j.inputs.length lanes.toArray

/-- The part `part` is run alone, for an output of its own extents and type, and a memory holds the
result. It becomes one more input, and a dense read of it takes the place of the part. -/
inductive Detaches (part : Tree α) : Job α → Job α → Prop
  /-- Such a run. -/
  | mk {t t' : Tree α} {inputs : List (Block α)} {c : Kernel α} {data : HostData α}
    (hpart : part ∈ t.nodes) (hc : Kernel.ofTree inputs.length part = .ok c)
    (hrun : Kernel.run part (.ofNats c.dims) c.dtype inputs = .ok data) (hheld : data.Held)
    (hswaps : Tree.Swaps part (.denseRead (inputs.length + 1) c.dtype c.dims) t t') :
    Detaches part ⟨t, inputs⟩ ⟨t', inputs ++ [.ofHost data]⟩

/-- Every operation in the tree of a sound job can be run alone. -/
theorem Sound.exists_run (h : j.Sound) (hpart : part ∈ j.tree.nodes) :
    ∃ c data, Kernel.ofTree j.inputs.length part = .ok c
      ∧ Kernel.run part (.ofNats c.dims) c.dtype j.inputs = .ok data := by
  obtain ⟨lanes, hlanes, hfits⟩ := h
  obtain ⟨c, x, hc, hx⟩ := (hfits.of_mem_nodes hpart).exists_kernel
  exact ⟨c, _, hc, Kernel.run_eq_ok hlanes hc hx trivial (Shape.static?_ofNats _) (by rw [hx.dims]) _⟩

/-- The result of an operation that is run alone has an element for each of its positions. -/
theorem Sound.size_run (h : j.Sound) (hpart : part ∈ j.tree.nodes) {c : Kernel α} {data : HostData α}
    (hc : Kernel.ofTree j.inputs.length part = .ok c)
    (hrun : Kernel.run part (.ofNats c.dims) c.dtype j.inputs = .ok data) :
    data.size = c.dims.prod := by
  obtain ⟨lanes, hlanes, hfits⟩ := h
  obtain ⟨d, x, hd, hx⟩ := (hfits.of_mem_nodes hpart).exists_kernel
  obtain rfl : d = c := Except.ok.inj (hd.symm.trans hc)
  rw [Kernel.run_eq_ok hlanes hc hx trivial (Shape.static?_ofNats _) (by rw [hx.dims])] at hrun
  rw [← Except.ok.inj hrun]
  simp [HostData.size, HostData.ofLanes]

variable [LawfulLane α] {lanes : List (Array α)} {inputs : List (Block α)} {c : Kernel α}
  {data : HostData α}

/-- Once a part was run alone, a tree that reads the result in its place fits the inputs, and it computes
what it did. -/
theorem exists_kernel_of_swaps (hlanes : inputs.mapM Kernel.blockLanes = .ok lanes)
    (hpart : part.Fits inputs.length lanes.toArray)
    (hc : Kernel.ofTree inputs.length part = .ok c)
    (hrun : Kernel.run part (.ofNats c.dims) c.dtype inputs = .ok data) (hheld : data.Held) :
    ∃ lanes', (inputs ++ [Block.ofHost data]).mapM Kernel.blockLanes = .ok lanes'
      ∧ ∀ t t', Tree.Swaps part (.denseRead (inputs.length + 1) c.dtype c.dims) t t' →
        t.Fits inputs.length lanes.toArray → ∀ k x, Kernel.ofTree inputs.length t = .ok k →
        k.Computes True lanes.toArray x → t'.Fits (inputs.length + 1) lanes'.toArray
          ∧ ∃ k', Kernel.ofTree (inputs.length + 1) t' = .ok k' ∧ k'.Computes True lanes'.toArray x := by
  have hlength : inputs.length = lanes.length := (mapM_eq_ok.mp hlanes).length_eq
  obtain ⟨d, x, hd, hx⟩ := hpart.exists_kernel
  obtain rfl : d = c := Except.ok.inj (hd.symm.trans hc)
  -- the result holds the elements as they are: they were rounded when they were computed
  have hdata : data.lanes = (Array.range d.dims.prod).map x.lane := by
    rw [Kernel.run_eq_ok hlanes hc hx trivial (Shape.static?_ofNats _) (by rw [hx.dims])] at hrun
    rw [← Except.ok.inj hrun, HostData.ofLanes, Array.map_map]
    refine Array.map_congr_left fun i hi => Kernel.round_eval (hx.eval_eq ?_)
    rw [← hx.dims]
    exact Array.mem_range.mp hi
  have hle : d.dims.prod ≤ 2 ^ 63 := by simpa [HostData.Held, HostData.size, hdata] using hheld
  refine ⟨lanes ++ [(Array.range d.dims.prod).map x.lane], ?_, ?_⟩
  · rw [mapM_eq_ok]
    exact List.rel_append (mapM_eq_ok.mp hlanes) (.cons (congrArg Except.ok hdata) .nil)
  · intro t t' hswaps hfits k y hk hy
    obtain ⟨hread, k', hk', hx'⟩ := Tree.fits_denseRead hx hle
    rw [← hlength] at hread hk'
    have hkept : ∀ i < lanes.toArray.size,
        (lanes ++ [(Array.range d.dims.prod).map x.lane]).toArray.getD i #[]
          = lanes.toArray.getD i #[] := by
      intro i hi
      have hi : i < lanes.length := by simpa using hi
      simp [List.getElem?_append_left hi, hi]
    refine hswaps.exists_kernel (Nat.le_succ _) hkept hread (fun e z he hz => ?_) hfits hk hy
    exact ⟨k', hk', (Except.ok.inj (he.symm.trans hc) ▸ hz).transfer hx hx'⟩

/-- A part that is run alone leaves a sound job with the same result. -/
theorem Detaches.sound (hdetaches : j.Detaches part j') (h : j.Sound) : j'.Sound ∧ j'.run = j.run := by
  obtain ⟨lanes, hlanes, hfits⟩ := h
  cases hdetaches with
  | @mk t t' inputs c data hpart hc hrun hheld hswaps =>
    obtain ⟨lanes', hlanes', hkernels⟩ :=
      exists_kernel_of_swaps hlanes (hfits.of_mem_nodes hpart) hc hrun hheld
    obtain ⟨k, x, hk, hx⟩ := hfits.exists_kernel
    obtain ⟨hfits', k', hk', hx'⟩ := hkernels t t' hswaps hfits k x hk hx
    have hlength : inputs.length + 1 = (inputs ++ [Block.ofHost data]).length := by simp
    rw [hlength] at hfits' hk'
    refine ⟨⟨lanes', hlanes', hfits'⟩, ?_⟩
    funext shape dtype
    rw [run, run, Kernel.run_eq hlanes hk hx trivial, Kernel.run_eq hlanes' hk' hx' trivial]

/-- However often parts are run alone, the result stays. -/
theorem Sound.run_chain (h : j.Sound)
    (hchain : Relation.ReflTransGen (fun j j' => ∃ part, Detaches part j j') j j') :
    j'.Sound ∧ j'.run = j.run := by
  induction hchain with
  | refl => exact ⟨h, rfl⟩
  | tail _ hstep ih =>
    obtain ⟨part, hdetaches⟩ := hstep
    obtain ⟨hsound, hrun⟩ := hdetaches.sound ih.1
    exact ⟨hsound, hrun.trans ih.2⟩

end Job

/-! ## One kernel for each operation -/

namespace Tree

variable {t t' part u : Tree α}

/-- An operation on reads and literals. -/
def IsSingle (t : Tree α) : Prop := t.isOperation = true ∧ ∀ s ∈ t.sources, s.isOperation = false

/-- The number of operations that are not reads or literals. -/
def operationCount (t : Tree α) : Nat := t.nodes.countP isOperation

/-- Fewer operations in a source are fewer in the tree. -/
theorem operationCount_lt {s s' : Tree α} (h : s'.operationCount < s.operationCount) (code : Opcode)
    (arg : Arg α) (issuer : Option Nat) (before after : List (Tree α)) :
    (node code arg issuer (before ++ s' :: after)).operationCount
      < (node code arg issuer (before ++ s :: after)).operationCount := by
  have hroot : (node code arg issuer (before ++ s' :: after)).isOperation
    = (node code arg issuer (before ++ s :: after)).isOperation := rfl
  simp only [operationCount] at h
  simp only [operationCount, nodes, nodesAll_eq, List.countP_cons, List.flatMap_append,
    List.flatMap_cons, List.countP_append, hroot]
  omega

/-- If the root is an operation, then some operation on reads and literals is in the tree, and a leaf in
its place makes the operations fewer. -/
theorem exists_isSingle (h : t.isOperation = true) :
    ∃ part ∈ t.nodes, part.IsSingle ∧ ∀ u : Tree α, u.operationCount = 0 →
      ∃ t', Swaps part u t t' ∧ t'.operationCount < t.operationCount := by
  induction t with
  | buffer b => cases h
  | node code arg issuer sources ih =>
    by_cases hleaves : ∀ s ∈ sources, s.isOperation = false
    · refine ⟨_, mem_nodes_node.mpr (.inl rfl), ⟨h, hleaves⟩, fun u hu => ⟨u, .here, ?_⟩⟩
      rw [hu, operationCount, nodes, List.countP_cons_of_pos h]
      exact Nat.succ_pos _
    · obtain ⟨s, hs, hoperation⟩ : ∃ s ∈ sources, s.isOperation = true := by simpa using hleaves
      obtain ⟨part, hpart, hsingle, hswaps⟩ := ih s hs hoperation
      refine ⟨part, mem_nodes_node.mpr (.inr ⟨s, hs, hpart⟩), hsingle, fun u hu => ?_⟩
      obtain ⟨s', hswap, hfewer⟩ := hswaps u hu
      obtain ⟨before, after, rfl⟩ := List.append_of_mem hs
      refine ⟨.node code arg issuer (before ++ s' :: after), .node ?_, ?_⟩
      · exact List.rel_append (List.forall₂_same.mpr fun t _ => .keep t)
          (.cons hswap (List.forall₂_same.mpr fun t _ => .keep t))
      · exact operationCount_lt hfewer code arg issuer before after

/-- An operation of a tree with a part replaced belongs to what was put in its place, or has taken the
place of an operation. -/
theorem Swaps.of_mem_nodes {s' : Tree α} (h : Swaps part u t t') (hs' : s' ∈ t'.nodes) :
    s' ∈ u.nodes ∨ ∃ s ∈ t.nodes, Swaps part u s s' := by
  induction t generalizing t' with
  | buffer b =>
    cases h with
    | here => exact .inl hs'
    | keep => exact .inr ⟨s', hs', .keep s'⟩
  | node code arg issuer sources ih =>
    cases h with
    | here => exact .inl hs'
    | keep => exact .inr ⟨s', hs', .keep s'⟩
    | node h =>
      rcases mem_nodes_node.mp hs' with rfl | ⟨r', hr', hs'⟩
      · exact .inr ⟨_, mem_nodes_node.mpr (.inl rfl), .node h⟩
      · obtain ⟨r, hr, hswap⟩ := exists_of_forall₂_right h hr'
        refine (ih r hr hswap hs').imp_right ?_
        rintro ⟨s, hs, hswap⟩
        exact ⟨s, mem_nodes_node.mpr (.inr ⟨r, hr, hs⟩), hswap⟩

@[simp] theorem nodes_denseRead (slot : Nat) (dtype : DType) (dims : List Nat) :
    (denseRead slot dtype dims : Tree α).nodes = [denseRead slot dtype dims] := rfl

end Tree

namespace Job

variable [Lane α] [LawfulLane α] {j j' : Job α} {part : Tree α}

/-- A memory holds the result of each operation of the tree. -/
def Small (j : Job α) : Prop :=
  ∀ part ∈ j.tree.nodes, ∀ c data, Kernel.ofTree j.inputs.length part = .ok c →
    Kernel.run part (.ofNats c.dims) c.dtype j.inputs = .ok data → data.Held

theorem Detaches.small (hdetaches : Detaches part j j') (h : j.Sound) (hsmall : j.Small) :
    j'.Small := by
  have hsound := (hdetaches.sound h).1
  have hruns := h
  obtain ⟨lanes, hlanes, hfits⟩ := h
  cases hdetaches with
  | @mk t t' inputs c data hpart hc hrun hheld hswaps =>
    obtain ⟨lanes', -, hkernels⟩ :=
      exists_kernel_of_swaps hlanes (hfits.of_mem_nodes hpart) hc hrun hheld
    have hlength : (inputs ++ [Block.ofHost data]).length = inputs.length + 1 := by simp
    -- what has taken the place of an operation has its extents
    have hswapped : ∀ s ∈ t.nodes, ∀ s' d', Tree.Swaps part
        (.denseRead (inputs.length + 1) c.dtype c.dims) s s' →
        Kernel.ofTree (inputs.length + 1) s' = .ok d' → d'.dims.prod ≤ 2 ^ 63 := by
      intro s hs s' d' hswap hd'
      have hsfits : s.Fits inputs.length lanes.toArray := hfits.of_mem_nodes hs
      obtain ⟨d, x, hd, hx⟩ := hsfits.exists_kernel
      obtain ⟨-, e, he, hx'⟩ := hkernels s s' hswap hsfits d x hd hx
      obtain rfl : e = d' := Except.ok.inj (he.symm.trans hd')
      obtain ⟨d', data, hd', hdata⟩ := hruns.exists_run hs
      obtain rfl : d' = d := Except.ok.inj (hd'.symm.trans hd)
      rw [hx'.dims, ← hx.dims, ← hruns.size_run hs hd hdata]
      exact hsmall s hs _ data hd hdata
    intro s' hs' d' data' hd' hdata'
    rw [HostData.Held, hsound.size_run hs' hd' hdata']
    rw [hlength] at hd'
    rcases hswaps.of_mem_nodes hs' with hread | ⟨s, hs, hswap⟩
    · obtain rfl := List.mem_singleton.mp (Tree.nodes_denseRead _ _ _ ▸ hread)
      exact hswapped part hpart _ d' .here hd'
    · exact hswapped s hs s' d' hswap hd'

/-- A sound job whose results a memory holds runs as a chain of kernels with one operation each. -/
theorem Sound.exists_chain (h : j.Sound) (hsmall : j.Small) :
    ∃ j', Relation.ReflTransGen (fun j j' => ∃ part : Tree α, part.IsSingle ∧ Detaches part j j') j j'
      ∧ j'.tree.isOperation = false := by
  induction hcount : j.tree.operationCount using Nat.strong_induction_on generalizing j with
  | _ count ih =>
    cases hoperation : j.tree.isOperation with
    | false => exact ⟨j, .refl, hoperation⟩
    | true =>
      obtain ⟨part, hpart, hsingle, hswaps⟩ := Tree.exists_isSingle hoperation
      obtain ⟨c, data, hc, hrun⟩ := h.exists_run hpart
      obtain ⟨t', hswap, hfewer⟩ := hswaps (.denseRead (j.inputs.length + 1) c.dtype c.dims) rfl
      have hstep : Detaches part j ⟨t', j.inputs ++ [.ofHost data]⟩ :=
        .mk hpart hc hrun (hsmall part hpart c data hc hrun) hswap
      obtain ⟨j', hchain, hleaf⟩ :=
        ih _ (hcount ▸ hfewer) (hstep.sound h).1 (hstep.small h hsmall) rfl
      exact ⟨j', .head ⟨part, hsingle, hstep⟩ hchain, hleaf⟩

/-- What becomes of a job when its parts are run alone. -/
structure Splits (j : Job α) : Prop where
  /-- The job succeeds for every output of as many elements. -/
  succeeds : ∃ k, Kernel.ofTree j.inputs.length j.tree = .ok k ∧ ∀ shape dims, shape.static? = some dims →
    dims.prod = k.dims.prod → ∀ dtype, ∃ data, j.run shape dtype = .ok data
  /-- Every operation can be run alone, into a buffer of its extents and its type. Once its result is one
  more input, so that a memory holds it, and a dense read of it stands in any of the places of the
  operation, a run gives what it gave. -/
  part : ∀ part ∈ j.tree.nodes, ∃ c data, Kernel.ofTree j.inputs.length part = .ok c
    ∧ Kernel.run part (.ofNats c.dims) c.dtype j.inputs = .ok data
    ∧ (data.Held → ∀ t',
      Tree.Swaps part (.denseRead (j.inputs.length + 1) c.dtype c.dims) j.tree t' →
      ∀ shape dtype, Kernel.run t' shape dtype (j.inputs ++ [.ofHost data])
        = Kernel.run j.tree shape dtype j.inputs)
  /-- Over and over, runs of parts alone give what the job gives. -/
  chain : ∀ j', Relation.ReflTransGen (fun j j' => ∃ part, Detaches part j j') j j' →
    ∀ shape dtype, Kernel.run j'.tree shape dtype j'.inputs = Kernel.run j.tree shape dtype j.inputs
  /-- With a kernel for each operation, a read of the last result is left, and it gives what the job
  gives. -/
  complete : j.Small → ∃ j',
    Relation.ReflTransGen (fun j j' => ∃ part : Tree α, part.IsSingle ∧ Detaches part j j') j j'
      ∧ j'.tree.isOperation = false
      ∧ ∀ shape dtype, Kernel.run j'.tree shape dtype j'.inputs = Kernel.run j.tree shape dtype j.inputs

/-- A fused tree equals its chain of kernels, whatever the arithmetic of lanes is. -/
theorem Sound.splits (h : j.Sound) : j.Splits where
  succeeds := by
    obtain ⟨lanes, hlanes, hfits⟩ := h
    obtain ⟨k, x, hk, hx⟩ := hfits.exists_kernel
    refine ⟨k, hk, fun shape dims hshape hprod dtype => ?_⟩
    have hcount : x.dims.prod = dims.prod := by rw [hprod, hx.dims]
    exact ⟨_, Kernel.run_eq_ok hlanes hk hx trivial hshape hcount dtype⟩
  part part hpart := by
    obtain ⟨c, data, hc, hrun⟩ := h.exists_run hpart
    refine ⟨c, data, hc, hrun, fun hheld t' hswaps shape dtype => ?_⟩
    have hstep : Detaches part j ⟨t', j.inputs ++ [.ofHost data]⟩ := .mk hpart hc hrun hheld hswaps
    exact congrFun (congrFun (hstep.sound h).2 shape) dtype
  chain j' hchain shape dtype := congrFun (congrFun (h.run_chain hchain).2 shape) dtype
  complete hsmall := by
    obtain ⟨j', hchain, hleaf⟩ := h.exists_chain hsmall
    have hparts : Relation.ReflTransGen (fun j j' => ∃ part : Tree α, Detaches part j j') j j' :=
      hchain.lift id fun _ _ ⟨part, _, hdetaches⟩ => ⟨part, hdetaches⟩
    exact ⟨j', hchain, hleaf, fun shape dtype =>
      congrFun (congrFun (h.run_chain hparts).2 shape) dtype⟩

/-- The rows of a negated table, added up. -/
def negatedRows : Job Whole where
  tree := .node (.reduce .sum) (.shape (.ofNats [2, 1])) none
    [.node (.unary .neg) .none none [.denseRead 1 .i32 [2, 3]]]
  inputs := [.ofHost ⟨.i32, #[.num 1, .num 2, .num 3, .num 4, .num 5, .num 6]⟩]

theorem sound_negatedRows : negatedRows.Sound := by
  have hinside : (Kernel.read 0 (.ofShape (.ofNats [2, 3])) [2, 3] .i32).ReadsInside
      #[#[Whole.num 1, .num 2, .num 3, .num 4, .num 5, .num 6]] := by
    refine fun i hi => ⟨Tracker.lookup_ofShape (Shape.static?_ofNats _) (by decide) hi, ?_⟩
    intro place hplace
    rw [Tracker.locate_ofShape (Shape.static?_ofNats _) (by decide) hi] at hplace
    exact Option.some.inj hplace ▸ hi
  refine ⟨_, rfl, .operation rfl ?_ (.cons rfl .nil) rfl (by simp)⟩
  refine List.forall_mem_singleton.mpr (.operation rfl ?_ (.cons rfl .nil) rfl (by simp))
  exact List.forall_mem_singleton.mpr (.leaf rfl hinside)

theorem splits_negatedRows : negatedRows.Sound ∧ negatedRows.Splits :=
  ⟨sound_negatedRows, sound_negatedRows.splits⟩

end Job

end TensorGraph
