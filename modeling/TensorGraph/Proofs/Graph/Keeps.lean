import TensorGraph.Proofs.Graph.Fusion
import TensorGraph.Proofs.Graph.Reduce
import TensorGraph.Proofs.World
/-!
# Building keeps graphs well-formed

Every operation that builds leaves the graph well-formed, whether it is refused or not, and the
buffer that it hands out is in the census. The bases that it adds wait for their results.

- `Graph.building`: how building changes a graph.
- `Build.HandsOut`: operations that hand out a buffer.
-/

namespace TensorGraph

open TensorGraph.Graph

variable {α : Type} {W : Census} {g : Graph α} {b : Buffer}

/-- Building keeps a graph well-formed, with the buffers of a census. -/
def Graph.building : World Census (Graph α) where
  Sound W g := g.WellFormed W
  Leads := Built
  refl hg := hg.viewed.built
  trans := Built.trans
  Fails := Built
  fails h := h
  trans_fails := Built.trans
  sound_fails h := h.wellFormed

/-- The operation hands out a buffer, or is refused; the graph stays well-formed. -/
abbrev Build.HandsOut (W : Census) (g : Graph α) (x : Build α Buffer) : Prop :=
  building.Keeps W g x (fun c W' _ => W'.Lists c) fun _ => True

namespace Buffer

theorem handsOut_move (hg : g.WellFormed W) (hb : W.Lists b) (m : Movement) :
    Build.HandsOut W g (b.move m) := by
  refine (sat_move hg hb m).imp ?_ ?_
  · rintro c g' ⟨W', hviewed, hc, -⟩
    exact ⟨W', hviewed.built, hc⟩
  · rintro _ g' ⟨rfl, -⟩
    exact ⟨trivial, W, hg.viewed.built⟩

theorem handsOut_load (hg : g.WellFormed W) {sources : List Buffer}
    (hsources : ∀ b ∈ sources, W.Lists b) (op : LoadOp) (shape : Shape) (dtype : DType)
    (device : String) (arg : Arg α) (config : Config) :
    Build.HandsOut W g (load op shape dtype device arg sources config) := by
  refine (sat_load hg hsources op shape dtype device arg config).imp ?_ ?_
  · rintro c g' ⟨W', hadded⟩
    exact ⟨W', hadded.built hg, hadded.lists⟩
  · rintro _ g' ⟨rfl, -⟩
    exact ⟨trivial, W, hg.viewed.built⟩

theorem handsOut_constant (hg : g.WellFormed W) (value : α) (shape : Shape) (dtype : DType)
    (device : String) (config : Config) :
    Build.HandsOut W g (constant value shape dtype device config) := by
  refine (sat_constant hg value shape dtype device config).imp ?_ ?_
  · rintro c g' ⟨W₁, b, g₁, W', hadded, hviewed, hc, -⟩
    exact ⟨W', (hadded.built hg).trans hviewed.built, hc⟩
  · rintro _ g' ⟨-, -, W₁, b, g₁, W', hadded, hviewed⟩
    exact ⟨trivial, W', (hadded.built hg).trans hviewed.built⟩

theorem handsOut_contiguous (hg : g.WellFormed W) (hb : W.Lists b) :
    Build.HandsOut W g (b.contiguous : Build α Buffer) := by
  refine (sat_contiguous hg hb).imp ?_ ?_
  · rintro c g' (⟨-, rfl, rfl⟩ | ⟨-, W', hadded⟩)
    · exact ⟨W, hg.viewed.built, hb⟩
    · exact ⟨W', hadded.built hg, hadded.lists⟩
  · rintro _ g' ⟨rfl, -⟩
    exact ⟨trivial, W, hg.viewed.built⟩

theorem handsOut_elementwise (hg : g.WellFormed W) {others : List Buffer}
    (hbs : ∀ c ∈ b :: others, W.Lists c) (held : List Buffer) (code : Opcode) (arg : Arg α) :
    Build.HandsOut W g (b.elementwise held code others arg) := by
  refine (sat_elementwise hg hbs held code arg).imp ?_ ?_
  · rintro c g' ⟨-, W₁, g₁, sources, dtype, W', hviewed, -, -, hadded⟩
    exact ⟨W', hviewed.built.trans (hadded.built hviewed.wellFormed), hadded.lists⟩
  · rintro _ g' ⟨⟨W', hviewed⟩, -⟩
    exact ⟨trivial, W', hviewed.built⟩

theorem handsOut_reduce (hg : g.WellFormed W) (hb : W.Lists b) (op : ReduceOp) (target : Shape) :
    Build.HandsOut W g (b.reduce op target : Build α Buffer) := by
  refine (sat_reduce hg hb op target).imp ?_ ?_
  · rintro c g' ⟨-, -, W', hreduced⟩
    exact ⟨W', hreduced.built hg, hreduced.lists hb⟩
  · rintro _ g' (⟨-, rfl, -⟩ | ⟨-, ⟨W', hhalted⟩, -⟩)
    · exact ⟨trivial, W, hg.viewed.built⟩
    · exact ⟨trivial, W', hhalted.built⟩

end Buffer

end TensorGraph
