import TensorGraph.Block
/-!
# Loaders

A loader supplies the result of a custom load. It sees the buffer it is asked for and the sources
of the load, may read sources back one after the other, and then ends with a block, an error or a
panic. What it does may depend on how often it was called before.

Reading its own sources back is all that a loader does with the graph. It builds nothing, and it
realizes no buffer but those that its sources need; a loader with handles of its own could.

- `Script`: what a loader does on one call.
- `Loader`: a script for each call.
- `Loader.fixed`, `Loader.refuse`, `Loader.sum`, `Loader.afterFirst`: common loaders.
-/

namespace TensorGraph

/-- What a loader does on one call with `n` sources. -/
inductive Script (α : Type) (n : Nat) where
  /-- Ends with a result. -/
  | finish (block : Block α)
  /-- Ends with an error. -/
  | fail (cause : Error)
  /-- Ends with a panic. -/
  | panic (text : String)
  /-- Reads a source back and goes on with what came of it. -/
  | read (source : Fin n) (next : Except Error (HostArray α) → Script α n)

/-- A supplier of results: what to do on the call with this many calls before it. -/
structure Loader (α : Type) where
  /-- The script of one call. -/
  script : (earlier : Nat) → (output : Buffer) → (sources : List Buffer) → Script α sources.length

namespace Loader

variable {α : Type}

/-- The loader that always has the same result. -/
def fixed (block : Block α) : Loader α := ⟨fun _ _ _ => .finish block⟩

/-- The loader that never has a result. -/
def refuse : Loader α :=
  ⟨fun _ _ sources => .fail (.loader s!"loader refused {sources.length} source(s)")⟩

/-- Adds two lists of lanes, as far as both go; what the first has beyond the second stays. -/
def addLanes [Lane α] (acc lanes : Array α) : Array α :=
  acc.mapIdx fun i x => (lanes[i]?).elim x (Lane.binary .add x)

/-- Adds the lanes of the given sources to `acc` and ends with the sum. -/
def sumFrom [Lane α] {n : Nat} (dtype : DType) : List (Fin n) → Array α → Script α n
  | [], acc => .finish (.ofHost (.ofLanes dtype acc))
  | i :: rest, acc => .read i fun
    | .ok array => sumFrom dtype rest (addLanes acc array.lanes)
    | .error cause => .fail cause

/-- The loader that adds all sources to a constant, element by element. -/
def sum [Lane α] (bias : α) : Loader α :=
  ⟨fun _ output sources =>
    sumFrom output.dtype (List.finRange sources.length)
      (Array.replicate (output.shape.elements?.getD 0) bias)⟩

/-- The loader that does `first` on its first call and then what `later` does. -/
def afterFirst (first : (n : Nat) → Script α n) (later : Loader α) : Loader α :=
  ⟨fun
    | 0, _, sources => first sources.length
    | earlier + 1, output, sources => later.script earlier output sources⟩

end Loader

end TensorGraph
