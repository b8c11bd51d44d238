import TensorGraph.Lane.Binary64
import TensorGraph.Proofs.Session
/-!
# Schedules are ordered and exact

A schedule has one unit for each base that is needed and has no result, none for any other base,
and each unit stands behind all that it reads.

- `ExactSchedule`: what is asked of a schedule.
- `Session.Reachable.schedule_exact`: scheduling in a reachable session gives such a list.
-/

namespace TensorGraph

variable {α : Type} {W : Census} {g : Graph α} {b : Buffer} {items : List (Item α)}

/-- The units `items` realize the base of `b` in the graph `g`, in this order, and nothing else. -/
structure ExactSchedule (g : Graph α) (b : Buffer) (items : List (Item α)) : Prop where
  /-- No base is realized twice. -/
  nodup : (items.map fun item => item.output.base.id).Nodup
  /-- No base is realized that has a result. -/
  unrealized : ∀ item ∈ items, g.isRealized item.output = false
  /-- What a unit reads has a result, or is realized by an earlier unit. -/
  ordered : ∀ before item after, items = before ++ item :: after →
    ∀ c ∈ item.inputs ++ item.slots,
      g.isRealized c = true ∨ ∃ earlier ∈ before, earlier.output.base.id = c.base.id
  /-- The base itself comes last, if it has no result. -/
  last : g.isRealized b = false → ∃ init item, items = init ++ [item] ∧ item.output.base = b.base
  /-- Nothing is to be done for a base with a result. -/
  nothing : g.isRealized b = true → items = []
  /-- Every unit but the last is for a base that a later unit reads. -/
  needed : ∀ before item after, items = before ++ item :: after →
    after = [] ∨ ∃ later ∈ after, ∃ c ∈ later.inputs, c.base.id = item.output.base.id

theorem ExactSchedule.of_same {g' : Graph α} (h : g'.cores = g.cores)
    (hexact : ExactSchedule g' b items) : ExactSchedule g b items := by
  have hrealized : g'.isRealized = g.isRealized := funext (Graph.isRealized_congr h)
  exact ⟨hexact.nodup, hrealized ▸ hexact.unrealized, hrealized ▸ hexact.ordered,
    hrealized ▸ hexact.last, hrealized ▸ hexact.nothing, hexact.needed⟩

/-- The schedules that the search makes are exact. -/
theorem Scheduled.exact (hg : g.WellFormed W) (h : Scheduled W g b items) :
    ExactSchedule g b items := by
  have houtput {item : Item α} (hitem : item ∈ items) : item.output.id = item.output.base.id := by
    obtain ⟨-, -, hbase, -⟩ := h.units item hitem
    exact congrArg Buffer.id hbase
  have hreads {item : Item α} (hitem : item ∈ items) := by
    obtain ⟨hlowers, hlist, -, -⟩ := h.units item hitem
    exact hlowers.reads hg (.refl W) (hg.lists_base hlist)
  constructor
  case nodup =>
    have hmap : (items.map fun item => item.output.base.id) = items.map fun item => item.output.id :=
      List.map_congr_left fun item hitem => (houtput hitem).symm
    rw [hmap]
    exact h.nodup
  case unrealized => exact fun item hitem => (h.units item hitem).2.2.2
  case ordered =>
    intro before item after heq c hc
    have hmem {x : Item α} (hx : x ∈ before ++ item :: after) : x ∈ items := heq ▸ hx
    have hinput (d : Buffer) (hd : d ∈ item.inputs) :
        g.isRealized d = true ∨ ∃ earlier ∈ before, earlier.output.base.id = d.base.id := by
      rcases h.ordered before item after heq d hd with hd | ⟨earlier, hearlier, hid⟩
      · exact .inl hd
      · have hmem := hmem (List.mem_append_left _ hearlier)
        exact .inr ⟨earlier, hearlier, (houtput hmem).symm.trans hid⟩
    rcases List.mem_append.mp hc with hc | hc
    · exact hinput c hc
    · -- a slot is the base of an input
      obtain ⟨d, hd, rfl⟩ := (hreads (hmem (by simp))).2.2.2 c hc
      rw [g.isRealized_root, d.base_root]
      exact hinput d hd
  case last =>
    intro hb'
    rcases h.ends with rfl | ⟨init, last, rfl, hlast, -⟩
    · rcases h.reached with hrealized | ⟨item, hitem, -⟩
      · rw [hb'] at hrealized
        cases hrealized
      · cases hitem
    · exact ⟨init, last, rfl, by rw [hlast]; rfl⟩
  case nothing =>
    intro hb'
    rcases h.ends with rfl | ⟨init, last, rfl, hlast, -⟩
    · rfl
    · have hunrealized := (h.units last (by simp)).2.2.2
      rw [hlast, Graph.isRealized, Graph.result?] at hunrealized
      cases hb'.symm.trans hunrealized
  case needed =>
    -- every unit but the last is read by a later one, and the last is that of `b`
    intro before item after heq
    rcases List.eq_nil_or_concat after with rfl | ⟨after, last, rfl⟩
    · exact .inl rfl
    · rcases h.ends with rfl | ⟨init, last', hsplit, -, hread⟩
      · simp at heq
      · have hsplit' : init ++ [last'] = (before ++ item :: after) ++ [last] := by
          rw [← hsplit, heq]
          simp
        obtain ⟨rfl, hlast⟩ := List.append_inj' hsplit' rfl
        obtain rfl : last' = last := by simpa using hlast
        obtain ⟨later, hlater, c, hc, hid⟩ := hread.of_split rfl
        have hitem : item ∈ items := heq ▸ by simp
        exact .inr ⟨later, by simpa using hlater, c, hc, hid.trans (houtput hitem)⟩

namespace Session

variable [Lane α] {devices : Registry α} {s : Session α}

/-- In a reachable session, whatever handles are held, a schedule for a buffer is exact if there is
one, and the search for it never runs out of steps. -/
theorem Reachable.schedule_exact (hs : s.Reachable devices) (hb : s.Owns b) (held : List Buffer) :
    match ((b.schedule held).run s.engine.graph).1 with
    | .ok items => ExactSchedule s.engine.graph b items
    | .error e => ∀ id, e ≠ .outOfOrder id := by
  obtain ⟨W, hsound⟩ := hs.sound
  have hlists := hb.lists hsound
  have h := Buffer.sat_schedule hsound.1.wellFormed hlists held
  rw [Sat] at h
  rcases hrun : (b.schedule held).run s.engine.graph with ⟨e | items, g'⟩ <;> rw [hrun] at h
  · exact fun id hid => h.2.1 ⟨id, hid⟩
  · obtain ⟨W', hviewed, hscheduled⟩ := h
    exact (hscheduled.exact hviewed.wellFormed).of_same hviewed.same.cores

/-- The session after samples were multiplied by the sums of their rows. -/
def scaledSamples : Session Float :=
  let run (s : Session Float) (c : Command Float) : Session Float := (s.step [] c).2
  let s := run {} (.define "x" (.load .rand (.ofNats [2, 3]) .f32 "cpu" (.ok (.seed 7)) [] {}))
  let s := run s (.define "s" (.reduce "x" .sum (.ofNats [2, 1])))
  let s := run s (.define "t" (.move "s" (.expand (.ofNats [2, 3]))))
  run s (.define "z" (.elementwise "x" (.binary .mul) ["t"] (.ok .none)))

/-- The base that holds the products. -/
def scaledBase : Base := ⟨4, .ofNats [2, 3], .f32, "cpu", {}⟩

/-- The samples come first, then their sums, which are read in repeated rows and so join no kernel, and
then the products, which read both. -/
theorem schedule_exact_scaledSamples :
    ∃ items,
      ((scaledBase.buffer.schedule scaledSamples.held).run scaledSamples.engine.graph).1 = .ok items
      ∧ (items.map fun item => (item.output.id, item.slots.map Buffer.id))
        = [(1, []), (2, [1]), (4, [1, 2])]
      ∧ ExactSchedule scaledSamples.engine.graph scaledBase.buffer items := by
  have hs : scaledSamples.Reachable [] := .step (.step (.step (.step .start _) _) _) _
  have howns : scaledSamples.Owns scaledBase.buffer :=
    .base (e := ⟨scaledBase, _, _, _, _⟩) (List.Mem.head _)
  have hunits :
      (((scaledBase.buffer.schedule scaledSamples.held).run scaledSamples.engine.graph).1.toOption.map
        fun items => items.map fun item => (item.output.id, item.slots.map Buffer.id))
      = some [(1, []), (2, [1]), (4, [1, 2])] := by decide +kernel
  have hexact := Reachable.schedule_exact hs howns scaledSamples.held
  cases hrun : ((scaledBase.buffer.schedule scaledSamples.held).run scaledSamples.engine.graph).1 with
  | error cause =>
    rw [hrun] at hunits
    cases hunits
  | ok items =>
    rw [hrun] at hunits hexact
    exact ⟨items, rfl, Option.some.inj hunits, hexact⟩

end Session

end TensorGraph
