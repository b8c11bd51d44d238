import TensorGraph.Device.Catalogue
import TensorGraph.Lane.Whole
import TensorGraph.Proofs.Kernel.Eval
import TensorGraph.Proofs.Kernel.Form
/-!
# Where the elements of an input are

A kernel takes the lanes of an input in host memory as they are stored. From any other storage it gets
them as elements of the declared type, which is also how an input is read back. The two agree as far
as the reads of the kernel round both to the same lane. Where the stored type is the declared one, or
an input is read as its declared type, that is always so; where neither holds, a kernel may see more of
an input in host memory than can be read back.

- `Block.exported`: the same elements, in a storage that gives them out as the type asked for.
- `Block.AlikeAs`: reads of a type do not tell the two apart.
- `Kernel.eval_congr`: what a kernel evaluates to depends on its reads only.
- `Backend.execute_exported_iff`: when executing tells the two apart.
-/

namespace TensorGraph

variable {α : Type} [Lane α]

/-- The block with its elements out of host memory: they are given out as elements of the type asked
for. Every other block stays. -/
def Block.exported (b : Block α) : Block α :=
  match b.storage with
  | .host data => { b with storage := .foreign fun dtype => .ok (data.convert dtype) }
  | _ => b

/-- A read of type `type` finds in the host memory of the block what it finds in its elements of the
declared type. -/
def Block.AlikeAs (b : Block α) (type : DType) : Prop :=
  ∀ data, b.storage = .host data → ∀ place < 2 ^ 63,
    (data.convert b.dtype).lanes[place]?.map (Lane.round type)
      = data.lanes[place]?.map (Lane.round type)

/-- The tree reads an input of index `i` as types only that `allowed i` holds of. -/
def Tree.ReadsAs (allowed : Nat → DType → Prop) (t : Tree α) : Prop :=
  ∀ r issuer sources, .node (.leaf .slot) (.slot r) issuer sources ∈ t.nodes →
    ∀ i, r.slot = i + 1 → allowed i r.dtype

/-! ## Reads that do not tell -/

/-- Elements look the same to a read of the declared type. -/
theorem Block.alikeAs_declared [LawfulLane α] (b : Block α) : b.AlikeAs b.dtype := by
  intro data _ place _
  rw [HostData.convert]
  split
  · rfl
  · simp [HostData.ofLanes, Function.comp_def, LawfulLane.round_round]

theorem HostData.size_convert (data : HostData α) (dtype : DType) :
    (data.convert dtype).lanes.size = data.lanes.size := by
  rw [convert]
  split
  · rfl
  · exact size_ofLanes ..

theorem Block.exported_eq {b : Block α} {data : HostData α} (h : b.storage = .host data) :
    b.exported = ⟨b.size, b.dtype, .foreign fun dtype => .ok (data.convert dtype)⟩ := by
  rw [exported, h]

namespace Kernel

variable {lanes lanes' : Array (Array α)} {k : Kernel α} {n : Nat} {t : Tree α}
  {inputs inputs' : List (Block α)}

/-! ## Evaluation -/

/-- Whatever is read of an input, both arrays give the same lane, or the same fault. -/
def ReadsAlike (lanes lanes' : Array (Array α)) (input : Nat) (type : DType) : Prop :=
  ∀ place < 2 ^ 63, Lane.round type <$> fetch lanes' input place
    = Lane.round type <$> fetch lanes input place

/-- A kernel evaluates to the same where its reads find the same. -/
theorem eval_congr (h : ∀ input tracker extents type, read input tracker extents type ∈ k.nodes →
    ReadsAlike lanes lanes' input type) : k.eval lanes' = k.eval lanes := by
  induction k with
  | read input tracker extents type =>
    funext flat
    rw [eval, eval]
    cases hfind : find tracker flat with
    | error => rfl
    | ok place =>
      cases place with
      | none => rfl
      | some place =>
        have hlt := Tracker.locate_lt (locate_of_find hfind)
        exact h input tracker extents type (mem_nodes.mpr (.inl rfl)) place hlt
  | literal =>
    funext flat
    rw [eval, eval]
  | unary op type x hx =>
    funext flat
    rw [eval, eval, hx fun input tracker extents type hread =>
      h input tracker extents type (by simp [nodes, hread])]
  | binary op type x y hx hy =>
    funext flat
    rw [eval, eval, hx fun input tracker extents type hread =>
      h input tracker extents type (by simp [nodes, hread]), hy fun input tracker extents type hread =>
      h input tracker extents type (by simp [nodes, hread])]
  | ternary op type x y z hx hy hz =>
    funext flat
    have hx := hx fun input tracker extents type hread =>
      h input tracker extents type (by simp [nodes, hread])
    have hy := hy fun input tracker extents type hread =>
      h input tracker extents type (by simp [nodes, hread])
    have hz := hz fun input tracker extents type hread =>
      h input tracker extents type (by simp [nodes, hread])
    cases op <;> rw [eval, eval, hx, hy, hz]
  | reduce op extents type x hx =>
    funext flat
    rw [eval, eval, hx fun input tracker extents type hread =>
      h input tracker extents type (by simp [nodes, hread])]

omit [Lane α] in
/-- The reads of a kernel are those of its tree. -/
theorem exists_of_read_mem_nodes (hk : ofTree n t = .ok k) {input : Nat} {tracker : Tracker}
    {extents : List Nat} {type : DType} (hread : read input tracker extents type ∈ k.nodes) :
    ∃ r issuer sources, .node (.leaf .slot) (.slot r) issuer sources ∈ t.nodes
      ∧ r.slot = input + 1 ∧ r.dtype = type := by
  induction t generalizing k with
  | buffer b => cases hk
  | node code arg issuer sources ih =>
    obtain ⟨ks, hks, hnode⟩ := ofTree_node_eq_ok.mp hk
    rcases mem_nodes.mp hread with rfl | ⟨x, hx, hread⟩
    · cases ofNode_eq_ok.mp hnode with
      | @slot r _ _ hpos =>
        exact ⟨r, issuer, sources, Tree.mem_nodes_node.mpr (.inl rfl), by omega, rfl⟩
    · obtain ⟨s, hs, hsx⟩ := exists_of_forall₂_left hks.flip (mem_of_mem_sources hnode hx)
      obtain ⟨r, issuer', sources', hmem, hr⟩ := ih s hs hsx hread
      exact ⟨r, issuer', sources', Tree.mem_nodes_node.mpr (.inr ⟨s, hs, hmem⟩), hr⟩

/-! ## Inputs -/

/-- The second block is the first, or the first with its elements out of host memory. -/
def MayExport (b b' : Block α) : Prop := b' = b ∨ b' = b.exported

/-- What a kernel gets of a block out of host memory are its elements of the declared type. -/
theorem blockLanes_exported {b : Block α} {data : HostData α} (h : b.storage = .host data) :
    blockLanes b = .ok data.lanes ∧ blockLanes b.exported = .ok (data.convert b.dtype).lanes := by
  rw [Block.exported_eq h, blockLanes, h]
  exact ⟨rfl, rfl⟩

theorem MayExport.cases {b b' : Block α} (h : MayExport b b') :
    b' = b ∨ b' = b.exported ∧ ∃ data, b.storage = .host data := by
  rcases h with rfl | rfl
  · exact .inl rfl
  · cases hstorage : b.storage with
    | host data => exact .inr ⟨rfl, data, rfl⟩
    | constant | foreign =>
      refine .inl ?_
      rw [Block.exported, hstorage]

/-- Out of host memory, inputs cannot be read if they could not be, and for the same reason. -/
theorem mapM_blockLanes_eq_error (h : List.Forall₂ MayExport inputs inputs') (e : Fault) :
    inputs.mapM blockLanes = .error e ↔ inputs'.mapM blockLanes = .error e := by
  refine mapM_eq_error_congr (h.imp fun b b' hb e => ?_) e
  rcases hb.cases with rfl | ⟨rfl, data, hdata⟩
  · exact Iff.rfl
  · simp [blockLanes_exported hdata]

theorem fetch_map (lanes : Array (Array α)) (input place : Nat) (type : DType) :
    Lane.round type <$> fetch lanes input place
      = match (lanes.getD input #[])[place]?.map (Lane.round type) with
        | some x => .ok x
        | none => .error (.pastEnd (input + 1) place (lanes.getD input #[]).size) := by
  rw [fetch]
  cases (lanes.getD input #[])[place]? <;> rfl

omit [Lane α] in
/-- The lanes of the inputs are, in their order, those of the blocks. -/
theorem exists_blockLanes_getElem {ls : List (Array α)} (hls : inputs.mapM blockLanes = .ok ls) {i : Nat}
    (hi : i < inputs.length) : ∃ hl : i < ls.length, blockLanes inputs[i] = .ok ls[i] :=
  have hin := mapM_eq_ok.mp hls
  ⟨hin.length_eq ▸ hi, hin.get hi (hin.length_eq ▸ hi)⟩

/-- Where reads do not tell the blocks of an input apart, they find the same. -/
theorem readsAlike {ls ls' : List (Array α)} (h : List.Forall₂ MayExport inputs inputs')
    (hls : inputs.mapM blockLanes = .ok ls) (hls' : inputs'.mapM blockLanes = .ok ls') {i : Nat}
    {type : DType} (halike : ∀ b b', inputs[i]? = some b → inputs'[i]? = some b' → b' ≠ b →
      b.AlikeAs type) : ReadsAlike ls.toArray ls'.toArray i type := by
  intro place hplace
  by_cases hi : i < inputs.length
  · have hi' : i < inputs'.length := h.length_eq ▸ hi
    obtain ⟨hl, hlane⟩ := exists_blockLanes_getElem hls hi
    obtain ⟨hl', hlane'⟩ := exists_blockLanes_getElem hls' hi'
    have hfetch : ls'[i].size = ls[i].size
        ∧ ls'[i][place]?.map (Lane.round type) = ls[i][place]?.map (Lane.round type) := by
      rcases MayExport.cases (h.get hi hi') with hsame | ⟨hexported, data, hdata⟩
      · have hsame : inputs'[i] = inputs[i] := hsame
        rw [hsame, hlane] at hlane'
        rw [Except.ok.inj hlane']
        exact ⟨rfl, rfl⟩
      · -- an exported block has lanes of its own, which reads of the type do not tell apart
        have hexported : inputs'[i] = inputs[i].exported := hexported
        have hdata : inputs[i].storage = .host data := hdata
        obtain ⟨hhost, hforeign⟩ := blockLanes_exported hdata
        have hne : inputs'[i] ≠ inputs[i] := by
          intro hsame
          rw [hexported, Block.exported_eq hdata] at hsame
          rw [← hsame] at hdata
          cases hdata
        rw [hexported] at hlane'
        rw [← Except.ok.inj (hhost.symm.trans hlane), ← Except.ok.inj (hforeign.symm.trans hlane')]
        exact ⟨HostData.size_convert .., halike _ _ (List.getElem?_eq_getElem hi)
          (List.getElem?_eq_getElem hi') hne data hdata place hplace⟩
    rw [fetch_map, fetch_map]
    simp only [Array.getD_eq_getD_getElem?, List.getElem?_toArray, List.getElem?_eq_getElem hl,
      List.getElem?_eq_getElem hl', Option.getD_some, hfetch.1, hfetch.2]
  · -- neither list has a block there
    have hempty : ls.toArray.getD i #[] = #[] := by
      have : ls.length ≤ i := by rw [← (mapM_eq_ok.mp hls).length_eq]; omega
      simp [this]
    have hempty' : ls'.toArray.getD i #[] = #[] := by
      have : ls'.length ≤ i := by rw [← (mapM_eq_ok.mp hls').length_eq, ← h.length_eq]; omega
      simp [this]
    rw [fetch, fetch, hempty, hempty']

/-- A tree gives the same, or the same fault, if none of its reads tells. -/
theorem run_exported (h : List.Forall₂ MayExport inputs inputs') {allowed : Nat → DType → Prop}
    (ht : t.ReadsAs allowed)
    (halike : (∃ lanes, inputs.mapM blockLanes = .ok lanes) → ∀ i b b', inputs[i]? = some b →
      inputs'[i]? = some b' → b' ≠ b → ∀ type, allowed i type → b.AlikeAs type) (shape : Shape)
    (dtype : DType) : run t shape dtype inputs' = run t shape dtype inputs := by
  rw [run, run]
  refine bind_congr fun dims => ?_
  cases hls : inputs.mapM blockLanes with
  | error e => rw [(mapM_blockLanes_eq_error h e).mp hls]; rfl
  | ok ls =>
    cases hls' : inputs'.mapM blockLanes with
    | error e => cases hls.symm.trans ((mapM_blockLanes_eq_error h e).mpr hls')
    | ok ls' =>
      rw [ok_bind, ok_bind, ← h.length_eq]
      cases hk : ofTree inputs.length t with
      | error e => rfl
      | ok k =>
        have heval : k.eval ls'.toArray = k.eval ls.toArray := by
          refine eval_congr fun input tracker extents type hread => ?_
          obtain ⟨r, issuer, sources, hmem, hslot, rfl⟩ := exists_of_read_mem_nodes hk hread
          exact readsAlike h hls hls' fun b b' hb hb' hne =>
            halike ⟨ls, hls⟩ input b b' hb hb' hne _ (ht r issuer sources hmem input hslot)
        simp only [ok_bind, heval]

/-! ## Reads that tell -/

/-- The read of a single lane. -/
def laneRead (slot place : Nat) (type : DType) : Tree α :=
  .node (.leaf .slot) (.slot ⟨slot, type, ⟨⟨.scalar, [], .ofNat place, none⟩, []⟩⟩) none []

omit [Lane α] in
theorem readsAs_laneRead {allowed : Nat → DType → Prop} {i : Nat} {type : DType}
    (h : allowed i type) (place : Nat) : (laneRead (i + 1) place type : Tree α).ReadsAs allowed := by
  intro r issuer sources hmem j hj
  obtain hnode := List.mem_singleton.mp hmem
  simp only [Tree.node.injEq, Arg.slot.injEq, true_and] at hnode
  rw [hnode.1] at hj ⊢
  obtain rfl : i = j := Nat.succ.inj hj
  exact h

theorem locate_laneRead {place : Nat} (h : place < 2 ^ 63) :
    (⟨⟨.scalar, [], .ofNat place, none⟩, []⟩ : Tracker).locate 0 = some place := by
  have hindex : (⟨.scalar, [], .ofNat place, none⟩ : View).index (unravel [] 0)
      = some (.ofNat place) := by
    simp [View.index, View.visible, View.place, unravel, unravelRest]
  have hscalar : (⟨⟨.scalar, [], .ofNat place, none⟩, []⟩ : Tracker).shape.static? = some [] := rfl
  rw [Tracker.locate_eq hscalar, hindex, Option.bind_some, Tracker.descend_ofNat _ (by omega), if_pos h]
  rfl

theorem lookup_laneRead {place : Nat} (h : place < 2 ^ 63) :
    (⟨⟨.scalar, [], .ofNat place, none⟩, []⟩ : Tracker).lookup 0
      = .ok ((⟨⟨.scalar, [], .ofNat place, none⟩, []⟩ : Tracker).locate 0) := by
  have hnear : Tracker.Near ⟨⟨.scalar, [], .ofNat place, none⟩, []⟩ := by
    refine List.forall_mem_singleton.mpr ⟨[], rfl, ?_⟩
    rwa [View.spread, stretch_nil, Nat.add_zero, toInt_ofNat_natAbs h]
  exact Tracker.lookup_of_near hnear 0

/-- A run of the read of a single lane gives that lane, rounded to its type. -/
theorem run_laneRead [LawfulLane α] {ls : List (Array α)} (hls : inputs.mapM blockLanes = .ok ls)
    {i place : Nat} (hi : i < ls.length) (hplace : place < 2 ^ 63) {x : α}
    (hx : ls[i][place]? = some x) (type : DType) :
    run (laneRead (i + 1) place type) .scalar type inputs = .ok ⟨type, #[Lane.round type x]⟩ := by
  have hlength : inputs.length = ls.length := (mapM_eq_ok.mp hls).length_eq
  have hk : ofTree inputs.length (laneRead (i + 1) place type : Tree α)
      = .ok (.read i ⟨⟨.scalar, [], .ofNat place, none⟩, []⟩ [] type) :=
    ofTree_node_eq_ok.mpr ⟨[], .nil, ofNode_eq_ok.mpr (.slot (Nat.succ_pos _) (hlength ▸ hi) rfl)⟩
  have hcomputes : Computes True ls.toArray (.read i ⟨⟨.scalar, [], .ofNat place, none⟩, []⟩ [] type)
      ⟨[], type, fun _ => Lane.round type x⟩ := by
    refine ⟨rfl, rfl, fun j hj => ?_⟩
    obtain rfl : j = 0 := Nat.lt_one_iff.mp hj
    rw [eval]
    refine (find_gives fun _ => lookup_laneRead hplace).bind ?_
    simp only [locate_laneRead hplace, fetch, Array.getD_eq_getD_getElem?, List.getElem?_toArray,
      List.getElem?_eq_getElem hi, Option.getD_some, hx]
    exact .met
  have hscalar : Shape.scalar.static? = some [] := rfl
  have hrange : Array.range ([] : List Nat).prod = #[0] := rfl
  rw [run_eq_ok hls hk hcomputes trivial hscalar rfl, HostData.ofLanes, hrange]
  simp [LawfulLane.round_round]

end Kernel

/-! ## Executions -/

namespace Backend

variable {inputs inputs' : List (Block α)} {tree : Tree α} {output : Buffer} {data : HostData α}

/-- The interpreter succeeds with the data of a run only. -/
theorem interpret_eq_ok : interpret tree output inputs = .ok (.ofHost data)
    ↔ Kernel.run tree output.shape output.dtype inputs = .ok data := by
  rw [interpret]
  cases Kernel.run tree output.shape output.dtype inputs with
  | ok data' =>
    refine ⟨fun h => ?_, fun h => by rw [Except.ok.inj h]⟩
    have hstorage := congrArg Block.storage (Except.ok.inj h)
    rw [Storage.host.inj hstorage]
  | error fault => exact ⟨nofun, nofun⟩

/-- Executions of the trees that read every input as allowed types only do not tell whether elements are
in host memory, if and only if none of the reads does that are possible on inputs that can be read at
all. -/
theorem execute_exported_iff [LawfulLane α] (h : List.Forall₂ Kernel.MayExport inputs inputs')
    (allowed : Nat → DType → Prop) (name : String) (capabilities : Capabilities) (counted : Bool)
    (args : DeviceArgs) :
    (∀ (tree : Tree α) output, tree.ReadsAs allowed →
      (interpreter name capabilities counted Takeover.never).execute tree output inputs' args
        = (interpreter name capabilities counted Takeover.never).execute tree output inputs args)
    ↔ ((∃ lanes, inputs.mapM Kernel.blockLanes = .ok lanes) →
        ∀ i b b', inputs[i]? = some b → inputs'[i]? = some b' → b' ≠ b →
          ∀ type, allowed i type → b.AlikeAs type) := by
  change (∀ tree output, tree.ReadsAs allowed →
    interpret tree output inputs' = interpret tree output inputs) ↔ _
  constructor
  · rintro hsame ⟨ls, hls⟩ i b b' hb hb' hne type hallowed data hdata place hplace
    obtain ⟨hi, rfl⟩ := List.getElem?_eq_some_iff.mp hb
    obtain ⟨hi', rfl⟩ := List.getElem?_eq_some_iff.mp hb'
    have hexported : inputs'[i] = inputs[i].exported := (h.get hi hi').resolve_left hne
    obtain ⟨hhost, hforeign⟩ := Kernel.blockLanes_exported hdata
    cases hls' : inputs'.mapM Kernel.blockLanes with
    | error e => cases hls.symm.trans ((Kernel.mapM_blockLanes_eq_error h e).mpr hls')
    | ok ls' =>
      obtain ⟨hl, hlane⟩ := Kernel.exists_blockLanes_getElem hls hi
      obtain ⟨hl', hlane'⟩ := Kernel.exists_blockLanes_getElem hls' hi'
      rw [hexported] at hlane'
      have hlane : ls[i] = data.lanes := Except.ok.inj (hlane.symm.trans hhost)
      have hlane' : ls'[i] = (data.convert inputs[i].dtype).lanes :=
        Except.ok.inj (hlane'.symm.trans hforeign)
      have hsize : ls'[i].size = ls[i].size := by rw [hlane, hlane', HostData.size_convert]
      rw [← hlane, ← hlane']
      by_cases hinside : place < ls[i].size
      · have hx := Array.getElem?_eq_getElem hinside
        have hx' := Array.getElem?_eq_getElem (hsize ▸ hinside : place < ls'[i].size)
        -- the tree that gives this lane, for an output of its type
        have hread := hsame (Kernel.laneRead (i + 1) place type)
          (Base.buffer ⟨0, .scalar, type, name, {}⟩) (Kernel.readsAs_laneRead hallowed place)
        have hrun := interpret_eq_ok.mp
          (hread.trans (interpret_eq_ok.mpr (Kernel.run_laneRead hls hl hplace hx type)))
        have hround := hrun.symm.trans (Kernel.run_laneRead hls' hl' hplace hx' type)
        rw [hx, hx']
        simpa using hround.symm
      · rw [Array.getElem?_eq_none (not_lt.mp hinside),
          Array.getElem?_eq_none (hsize ▸ not_lt.mp hinside)]
  · intro halike tree output htree
    rw [interpret, interpret, Kernel.run_exported h htree halike]

/-- A truth value that is stored as the number two. -/
def storedTwo : Block Whole := ⟨1, .bool, .host ⟨.i32, #[.num 2]⟩⟩

/-- Reads as truth values do not tell where the elements are. -/
theorem execute_exported_storedTwo : List.Forall₂ Kernel.MayExport [storedTwo] [storedTwo.exported]
    ∧ ∀ (tree : Tree Whole) output, tree.ReadsAs (fun _ type => type = .bool) →
      (interpreter "cpu" {} false Takeover.never).execute tree output [storedTwo.exported] []
        = (interpreter "cpu" {} false Takeover.never).execute tree output [storedTwo] [] := by
  have h : List.Forall₂ Kernel.MayExport [storedTwo] [storedTwo.exported] := .cons (.inr rfl) .nil
  refine ⟨h, (execute_exported_iff h _ "cpu" {} false []).mpr fun _ i b b' hb _ _ type htype => ?_⟩
  obtain rfl : b = storedTwo := List.mem_singleton.mp (List.mem_of_getElem? hb)
  exact htype ▸ storedTwo.alikeAs_declared

/-- A read as a whole number sees the number that is stored, or the truth value that is read back. -/
theorem execute_exported_ne :
    (interpreter "cpu" {} false Takeover.never).execute (Kernel.laneRead 1 0 .i32)
        (Base.buffer ⟨2, .scalar, .i32, "cpu", {}⟩) [storedTwo] [] = .ok (.ofHost ⟨.i32, #[.num 2]⟩)
      ∧ (interpreter "cpu" {} false Takeover.never).execute (Kernel.laneRead 1 0 .i32)
        (Base.buffer ⟨2, .scalar, .i32, "cpu", {}⟩) [storedTwo.exported] []
        = .ok (.ofHost ⟨.i32, #[.num 1]⟩) := by
  have hstored : [storedTwo].mapM Kernel.blockLanes = .ok [#[.num 2]] := rfl
  have hexported : [storedTwo.exported].mapM Kernel.blockLanes = .ok [#[.num 1]] := by
    have hbool : (HostData.convert ⟨.i32, #[.num 2]⟩ .bool : HostData Whole).lanes = #[.num 1] := by
      decide +kernel
    rw [← hbool]
    rfl
  constructor
  · exact interpret_eq_ok.mpr
      (Kernel.run_laneRead hstored Nat.one_pos (Nat.two_pow_pos 63) rfl .i32)
  · exact interpret_eq_ok.mpr
      (Kernel.run_laneRead hexported Nat.one_pos (Nat.two_pow_pos 63) rfl .i32)

end Backend

end TensorGraph
