import TensorGraph.Proofs.Schedule.Plan
/-!
# What a realization loads

Realizing a buffer runs the loads of bases that are older than a given number, and perhaps a kernel
that makes a dense copy.

- `Buffer.Within`: buffers whose realization loads older bases only.
- `Scheduled.within`: the units of a schedule for such a buffer.
-/

namespace TensorGraph

open TensorGraph.Graph

variable {α : Type} {W : Census} {g g' : Graph α} {b : Buffer} {item : Item α} {k : Nat}

/-- The realization of `b` loads bases below `k` only: `b` is on one, or on a dense copy of a view of
one. -/
inductive Buffer.Within (g : Graph α) (k : Nat) (b : Buffer) : Prop
  /-- The base is below. -/
  | base (h : b.base.id < k)
  /-- The base is a dense copy, which is no load. -/
  | copy {arg : Arg α} {issuer : Option Nat} {c : Buffer}
    (hop : g.op? b = some (.node (.load .contiguous) arg issuer [.buffer c]))
    (h : c.base.id < k)

theorem Buffer.Within.of_same (h : b.Within g k) (hcores : g'.cores = g.cores) : b.Within g' k := by
  cases h with
  | base hlt => exact .base hlt
  | copy hop hlt => exact .copy ((op?_congr hcores b).trans hop) hlt

/-- The unit of a base whose realization loads below `k` reads below `k`, and is no load above. -/
theorem Buffer.Within.reads (h : b.Within g k) (hg : g.WellFormed W) (hb : W.Lists b)
    (hlowers : b.base.buffer.Lowers W g item) :
    (∀ id, item.Reads id → id < k) ∧ ∀ op, item.load? = some op → b.base.id < k := by
  cases h with
  | base hlt =>
    have hbase := hg.lists_base (hg.lists_base hb)
    obtain ⟨-, hleaves, hinputs, -⟩ := hlowers.reads hg (.refl W) hbase
    refine ⟨?_, fun _ _ => hlt⟩
    rintro _ ⟨c, hc, rfl⟩
    exact (hleaves c (hinputs c hc)).2.trans hlt
  | @copy arg issuer c hop hlt =>
    cases hlowers with
    | load hop' hcode =>
      change (g.op? b).map _ = _ at hop'
      rw [hop] at hop'
      obtain rfl := Option.some.inj hop'
      cases hcode
    | @kernel op fused compiled hop' hfuse hcompiled =>
      have hload := hfuse.load?_eq_none hcompiled
      refine ⟨?_, fun op hop => absurd (hload.symm.trans hop) nofun⟩
      rintro _ ⟨d, hd, rfl⟩
      change (g.op? b).map _ = _ at hop'
      have hleaves : ∀ d ∈ op.leaves, W.Lists d ∧ d.base.id < k := by
        intro d hd
        obtain ⟨op', hop'', rfl⟩ := Option.map_eq_some_iff.mp hop'
        rw [leaves_lowered] at hd
        obtain rfl := Option.some.inj (hop.symm.trans hop'')
        obtain rfl : d = c := by simpa using hd
        exact ⟨(hg.older_base hb hop d (by simp)).1, hlt⟩
      exact (hfuse.leaves hg (.refl W) hleaves d (Tree.mem_leaves_of_mem_buffers hd)).2

/-- The units of a schedule are for bases below `k`, except that of the base itself, which then is no
load. -/
theorem Scheduled.within (hg : g.WellFormed W) (hb : W.Lists b) {items : List (Item α)}
    (h : Scheduled W g b items) (hwithin : b.Within g k) :
    ∀ item ∈ items, (item.output.base.id < k ∨ item.output.base.id = b.base.id)
      ∧ ∀ op, item.load? = some op → item.output.base.id < k := by
  have hid (item : Item α) (hitem : item ∈ items) : item.output.id = item.output.base.id :=
    congrArg Buffer.id (h.units item hitem).2.2.1
  have hreads (item : Item α) (hitem : item ∈ items) : ∀ id, item.Reads id → id < item.output.id := by
    rintro _ ⟨c, hc, rfl⟩
    obtain ⟨hlowers, hlist, -, -⟩ := h.units item hitem
    obtain ⟨-, hleaves, hinputs, -⟩ := hlowers.reads hg (.refl W) (hg.lists_base hlist)
    rw [hid item hitem]
    exact (hleaves c (hinputs c hc)).2
  rcases h.ends with rfl | ⟨init, last, rfl, hlast, hread⟩
  · nofun
  have hlowers : b.base.buffer.Lowers W g last := hlast ▸ (h.units last (by simp)).1
  obtain ⟨hlastReads, hlastLoad⟩ := hwithin.reads hg hb hlowers
  have hlt := hread.output_lt (by simpa using hlastReads) fun item hitem =>
    hreads item (List.mem_append_left _ hitem)
  intro item hitem
  rcases List.mem_append.mp hitem with hinit | hfinal
  · have hlt' := hlt item hinit
    rw [hid item hitem] at hlt'
    exact ⟨.inl hlt', fun _ _ => hlt'⟩
  · obtain rfl := List.mem_singleton.mp hfinal
    rw [hlast]
    exact ⟨.inr rfl, hlastLoad⟩

end TensorGraph
