import TensorGraph.Proofs.Meaning.Regular
import TensorGraph.Proofs.Meaning.Whole
/-!
# Reductions under two policies

Under every policy a reduction of whole numbers is read back as the elements that one pass or two make of
the elements of the buffer, unless arithmetic that leaves the words stops it. Against the policy that
never splits, nothing changes for a maximum and for truth values; a sum of 32-bit integers changes where
the sum of a group is too large to be stored, and the other groups lead back.

- `Tensor.reduce_matches`: the reference reduces in one pass or in two.
- `Session.Regular.exists_reduction`: what a reduction is read back as.
- `Session.Regular.reduces_alike_iff`: when a policy makes no difference.
-/

namespace TensorGraph

open TensorGraph.Graph World

variable {α : Type} [Lane α] {op : ReduceOp} {new : List Nat}

/-! ## The reference -/

namespace Dense

variable [ExactLane α] {x : Dense α}

/-- A reduction of whole numbers that folds nothing leaves them as they are. -/
theorem IsWhole.matches_reduce_self (hx : x.IsWhole) (op : ReduceOp) :
    Matches x.dims.prod x (x.reduce op x.dims) := by
  refine ⟨rfl, fun i hi => ?_⟩
  have hfirst : (Folding.ofLane op).total [x.lane i] = x.lane i := by
    rw [hx.lane_eq hi]
    exact ExactLane.fold_start op _
  rw [lane_reduce, Kernel.reads_self hi, List.map_singleton, hfirst, hx.rounded i hi]

end Dense

namespace Tensor

variable {t t' r : Tensor α} {s : Split}

omit [Lane α] in
/-- A reshape keeps the lanes. -/
theorem reshape_matches (h : t.move (.reshape (.ofNats new)) = some t')
    (hprod : t.dims.prod = new.prod) : t'.dims = new ∧ Dense.Matches new.prod t'.dense t.dense := by
  rw [move] at h
  split at h
  · next layout hlayout =>
    obtain ⟨dims, hdims, rfl⟩ := Option.map_eq_some_iff.mp h
    rw [Tracker.shape_reshape hlayout, Shape.static?_ofNats] at hdims
    obtain rfl := Option.some.inj hdims
    refine ⟨rfl, rfl, fun i hi => congrArg t.dense.lane ?_⟩
    exact Movement.sourceAt_reshape (Shape.static?_ofNats _) hprod hi
  · cases h

variable [ExactLane α]

theorem reduceOnce_matches (ht : t.dense.IsWhole) (op : ReduceOp) (new : List Nat) :
    (t.reduceOnce op new).dims = new
      ∧ Dense.Matches new.prod (t.reduceOnce op new).dense (t.dense.reduce op new) := by
  rw [reduceOnce]
  split
  · next hsame =>
    rw [hsame]
    exact ⟨rfl, ht.matches_reduce_self op⟩
  · exact ⟨rfl, .refl _ _⟩

variable [LawfulLane α]

theorem reduceTwice_matches (ht : t.dense.IsWhole) (hs : s.Cuts t.dims new)
    (hfold : List.Forall₂ (fun n m => n = m ∨ m = 1) t.dims new) (h : t.reduceTwice op new s = some r) :
    r.dims = new ∧ Dense.Matches new.prod r.dense (t.dense.reduceTwice op new s) := by
  obtain ⟨cut, hcut, h⟩ := Option.bind_eq_some_iff.mp h
  obtain ⟨outer, houter, h⟩ := Option.bind_eq_some_iff.mp h
  obtain rfl := Option.some.inj h
  obtain ⟨hcutDims, hcutLanes⟩ := reshape_matches hcut hs.prod_cut.symm
  have hcutWhole : cut.dense.IsWhole :=
    ht.of_matches hcutLanes hs.prod_cut.symm (congrArg List.prod hcutDims)
  obtain ⟨hinnerDims, hinnerLanes⟩ := reduceOnce_matches hcutWhole op (s.dims t.dims [1])
  obtain ⟨houterDims, houterLanes⟩ := reshape_matches houter (by rw [hinnerDims, s.prod_unit])
  -- without its unit axis the inner pass has left the results of the first pass
  have hfirst : Dense.Matches (s.dims t.dims []).prod outer.dense (t.dense.firstPass op s) := by
    have hcut' : Dense.Matches (s.dims t.dims [s.divisor]).prod cut.dense
        { t.dense with dims := s.dims t.dims [s.divisor] } := ⟨hcutLanes.dtype, hcutLanes.lane⟩
    have hinner := hinnerLanes.trans
      (Dense.matches_reduce (s.forall₂_inner t.dims).length_eq hcutDims rfl hcut' op)
    rw [s.prod_unit] at hinner
    refine ⟨houterLanes.dtype.trans hinner.dtype, fun q hq => ?_⟩
    rw [houterLanes.lane q hq, hinner.lane q hq, Dense.lane_reduce]
    rfl
  have houterWhole : outer.dense.IsWhole :=
    (ht.firstPass op s).of_matches hfirst rfl (congrArg List.prod houterDims)
  obtain ⟨hdims, hlanes⟩ := reduceOnce_matches houterWhole op new
  refine ⟨hdims, hlanes.trans ?_⟩
  exact Dense.matches_reduce (hs.forall₂_outer hfold).length_eq houterDims rfl hfirst op

/-- The reference reduces whole numbers in one pass or in two, as the policy chooses. -/
theorem reduce_matches (ht : t.dense.IsWhole)
    (hfold : List.Forall₂ (fun n m => n = m ∨ m = 1) t.dims new) (h : t.reduce op new = some r) :
    r.dims = new ∧ Dense.Matches new.prod r.dense
      (t.dense.reduceFor op new (t.config.split.choose t.dims new t.layout.axisStrides)) := by
  have hcuts {s : Split} (hs : t.config.split.choose t.dims new t.layout.axisStrides = some s) :
      s.Cuts t.dims new := SplitPolicy.choose_eq_some hs
  rw [reduce] at h
  split at h
  · next hsame =>
    obtain rfl := Option.some.inj h
    have hnone : t.config.split.choose t.dims new t.layout.axisStrides = none := by
      refine Option.eq_none_iff_forall_ne_some.mpr fun s hs => ?_
      obtain ⟨n, m, hn, hm, hne⟩ := (hcuts hs).axis
      exact hne (Option.some.inj (hn.symm.trans (hsame ▸ hm)))
    rw [hnone, hsame]
    exact ⟨rfl, ht.matches_reduce_self op⟩
  cases hchoose : t.config.split.choose t.dims new t.layout.axisStrides with
  | none =>
    rw [hchoose] at h
    obtain rfl := Option.some.inj h
    exact reduceOnce_matches ht op new
  | some s =>
    rw [hchoose] at h
    exact reduceTwice_matches ht (hcuts hchoose) hfold h

end Tensor

/-! ## Arrays -/

namespace HostArray

variable {a a' : HostArray α}

/-- The elements of an array. -/
def dense (a : HostArray α) : Dense α := ⟨a.shape, a.dtype, fun i => a.lanes[i]?.getD Lane.zero⟩

omit [Lane α] in
/-- Arrays with the same elements are the same. -/
theorem eq_iff (hshape : a.shape = a'.shape) (hdtype : a.dtype = a'.dtype) :
    a = a' ↔ ∀ i < a.shape.prod, a.lanes[i]? = a'.lanes[i]? := by
  refine ⟨fun h _ _ => h ▸ rfl, fun h => ?_⟩
  obtain ⟨dims, ⟨dtype, lanes⟩, hsize⟩ := a
  obtain ⟨dims', ⟨dtype', lanes'⟩, hsize'⟩ := a'
  obtain rfl : dims = dims' := hshape
  obtain rfl : dtype = dtype' := hdtype
  have hlanes : lanes = lanes' := by
    refine Array.ext (hsize.trans hsize'.symm) fun i hi hi' => ?_
    have hget := h i (hsize ▸ hi)
    simpa [HostArray.lanes, hi, hi'] using hget
  obtain rfl := hlanes
  rfl

end HostArray

/-- A buffer that shows a tensor shows the array that the tensor is read back as. -/
theorem HostArray.Reads.shows {v : Valuation α} {b : Buffer} {t : Tensor α} {a : HostArray α}
    (h : a.Reads t) (hshows : b.Shows v t) : b.Shows v ⟨t.layout, t.config, a.dense⟩ where
  layout := hshows.layout
  config := hshows.config
  into := by
    change b.Into a.shape
    rw [h.shape]
    exact hshows.into
  lanes := by
    change Dense.Matches a.shape.prod _ _
    rw [h.shape]
    refine ⟨hshows.lanes.dtype.trans h.dtype.symm, fun i hi => ?_⟩
    change _ = a.lanes[i]?.getD Lane.zero
    rw [h.lanes i hi, Option.getD_some, hshows.lanes.lane i hi]

/-- A reduction that fits shows what the reference makes of the elements, unless it is stopped. -/
theorem Buffer.steady_reduce [LawfulLane α] {devices : Registry α} {w : Census × Valuation α}
    {calm : Prop} {g : Graph α} {b : Buffer} {t : Tensor α} (h : Steady devices (.given calm .calm) w g)
    (hb : w.1.Lists b) (hshows : b.Shows w.2 t) (hroomy : calm → b.Roomy)
    (hfold : List.Forall₂ (fun n m => n = m ∨ m = 1) t.dims new) (hle : new.prod ≤ 2 ^ 63)
    (op : ReduceOp) :
    (steady devices (.given calm .calm) fun _ => False).Keeps w g (b.reduce op (.ofNats new))
      (fun c w' _ => w'.1.Lists c
        ∧ (∃ r, t.reduce op new = some r ∧ c.Shows w'.2 r) ∧ (calm → c.tracker.Calm))
      fun e => e = .movement .overflow ∧ ¬calm := by
  have hfold' : b.shape.FoldsTo (.ofNats new) := by
    rw [Shape.eq_ofNats hshows.into.shape]
    exact Shape.foldsTo_ofNats.mpr hfold
  have hkeeps : (meaning devices fun _ => False).Keeps w g (b.reduce op (.ofNats new)) _ _ :=
    Buffer.keeps_reduce h.1 hb hshows op (Shape.static?_ofNats new) hle
  refine (Sat.and hkeeps (Buffer.sat_reduce h.1.1 hb op (.ofNats new))).imp ?_ ?_
  · rintro c g' ⟨⟨w', hprogress, hc, hr⟩, -, -, W', hreduced⟩
    have hcalm (hc : calm) : g'.Obeys .calm ∧ c.tracker.Calm := by
      have hb := hroomy hc
      exact (h.2.of_given hc).reduced hb.calm hb.cuts (hb.calm.moderate.top.folded hfold') hreduced
    exact ⟨w', ⟨hprogress, obeys_given fun hc => (hcalm hc).1⟩, hc, hr, fun hc => (hcalm hc).2⟩
  · rintro e g' ⟨⟨-, w', hprogress⟩, ⟨-, -, hrefused⟩ | ⟨rfl, -, hsplittable⟩⟩
    · exact absurd hfold' hrefused
    · have hcalm : ¬calm := fun hcalm => hsplittable
        ((hroomy hcalm).splittable (h.2.calm (Rule.isCalm_given hcalm)).moderate h.1.1 hb)
      exact ⟨⟨rfl, hcalm⟩, w', hprogress, obeys_given fun h => absurd h hcalm⟩

/-- The array that a reply brings. -/
def Reply.array? (r : Reply α) : Option (HostArray α) :=
  match r.result with
  | .ok (.array a) => some a
  | _ => none

omit [Lane α] in
theorem Reply.result_eq {r : Reply α} {a : HostArray α} (h : r.array? = some a) :
    r.result = .ok (.array a) := by
  rw [array?] at h
  split at h
  · next hresult => rw [hresult, Option.some.inj h]
  · cases h

/-! ## Sessions -/

namespace Session

variable {devices devices' : Registry α} {w : Census × Valuation α} {s s' : Session α} {b b' : Buffer}
  {x x' : String} {a : HostArray α}

/-- The reduction of the buffer `x` by `op` to the extents `new` is made under the name `y` and read
back as the array `r`. -/
structure Reduces (devices : Registry α) (s : Session α) (x : String) (op : ReduceOp) (new : List Nat)
    (y : String) (r : HostArray α) : Prop where
  /-- The reduction is not refused. -/
  defined : (s.step devices (.define y (.reduce x op (.ofNats new)))).1.result.isOk = true
  /-- Its elements are read back. -/
  read : ((s.step devices (.define y (.reduce x op (.ofNats new)))).2.step devices
    (.readBack y)).1.result = .ok (.array r)

/-- Arithmetic that leaves the words stops the reduction of the buffer `x` under the name `y`, or reading
it back. -/
def Stops (devices : Registry α) (s : Session α) (x : String) (op : ReduceOp) (new : List Nat)
    (y : String) : Prop :=
  (s.step devices (.define y (.reduce x op (.ofNats new)))).1.result = .error (.failed .overflow)
    ∨ ((s.step devices (.define y (.reduce x op (.ofNats new)))).2.step devices
      (.readBack y)).1.result = .error (.failed .overflow)

variable [LawfulLane α]

/-- A buffer shows the array that it is read back as. -/
theorem Legible.shows_array (h : s.Legible devices .any w) (hb : s.Names x b)
    (ha : (s.step devices (.readBack x)).1.result = .ok (.array a)) :
    b.Shows w.2 ⟨b.tracker, b.config, a.dense⟩ := by
  obtain ⟨dims, hinto⟩ := h.into x b hb
  rcases reads_shown h.sound hb (hinto.shows _) with ⟨a', ha', hreads⟩ | ⟨hstopped, -⟩
  · obtain rfl : a = a' := by
      rw [ha] at ha'
      cases ha'
      rfl
    exact hreads.shows (hinto.shows _)
  · cases ha.symm.trans hstopped

/-- The elements that are read back are rounded. -/
theorem Legible.isWhole_array (h : s.Legible devices .any w) (hb : s.Names x b)
    (ha : (s.step devices (.readBack x)).1.result = .ok (.array a)) (hwhole : a.dtype.IsWhole) :
    a.dense.IsWhole := by
  have hlanes := (h.shows_array hb ha).lanes
  refine ⟨hwhole, fun i hi => ?_⟩
  rw [← hlanes.lane i hi, ← hlanes.dtype]
  exact h.meaningful.round_dense (hb.lists h.sound) i

/-- A reduction that fits is made under the name that it asks for, unless it is stopped. -/
theorem Legible.sat_reduction {calm : Prop} (h : s.Legible devices .any w)
    (hcalm : calm → s.engine.graph.Calm ∧ b.Roomy) (hb : s.Names x b)
    (ha : (s.step devices (.readBack x)).1.result = .ok (.array a))
    (hfold : List.Forall₂ (fun n m => n = m ∨ m = 1) a.shape new) (hle : new.prod ≤ 2 ^ 63)
    (op : ReduceOp) (y : String) :
    Sat ((Command.define y (.reduce x op (.ofNats new))).perform devices) s
      (fun _ s' => ∃ w' c t, (world (Engine.meaning devices (.given calm .calm))).Sound w' s' ∧ s'.Names y c
        ∧ (Tensor.reduce ⟨b.tracker, b.config, a.dense⟩ op new = some t ∧ c.Shows w'.2 t)
        ∧ (calm → c.tracker.Calm))
      fun cause _ => cause = .failed .overflow ∧ ¬calm := by
  have hshows := h.shows_array hb ha
  have hs : (world (Engine.meaning devices (.given calm .calm))).Sound w s :=
    ⟨⟨h.meaningful, obeys_given fun h => (hcalm h).1.obeys⟩, h.sound.2⟩
  have hmake : (world (Engine.meaning devices (.given calm .calm))).Keeps w s
      ((Recipe.reduce x op (.ofNats new)).make devices)
      (fun c w' _ => w'.1.Lists c
        ∧ (∃ t, Tensor.reduce ⟨b.tracker, b.config, a.dense⟩ op new = some t ∧ c.Shows w'.2 t)
        ∧ (calm → c.tracker.Calm))
      fun cause => cause = .failed .overflow ∧ ¬calm := by
    refine (Act.looks_named hs hb).look ?_
    rintro b rfl
    have hreduce := Buffer.steady_reduce hs.1 (hb.lists hs) hshows (fun h => (hcalm h).2) hfold hle op
    refine Act.keeps_engine hs (World.keeps_build (Sat.imp hreduce (fun _ _ h => h) ?_))
    rintro _ g' ⟨⟨rfl, hstopped⟩, hleads⟩
    exact ⟨⟨rfl, hstopped⟩, hleads⟩
  refine (Command.sat_define hmake).imp ?_ fun _ _ h => h.1
  rintro _ s' ⟨w', hends, c, ⟨⟨t, ht, hc⟩, hmade⟩, hbuffers⟩
  refine ⟨w', c, t, ⟨(Engine.meaning devices (.given calm .calm)).sound hends.engine, hends.held⟩, ?_, ⟨ht, hc⟩,
    hmade⟩
  rw [Names, hbuffers, List.lookup_cons_self]

variable [ExactLane α]

/-- Under every policy a reduction of whole numbers that fits is read back as what one pass or two make of
the elements of the buffer, unless it is stopped. -/
theorem Regular.exists_reduction (hs : s.Regular devices) (hb : s.Names x b)
    (ha : (s.step devices (.readBack x)).1.result = .ok (.array a)) (hwhole : a.dtype.IsWhole)
    (hfold : List.Forall₂ (fun n m => n = m ∨ m = 1) a.shape new) (hle : new.prod ≤ 2 ^ 63)
    (op : ReduceOp) (y : String) :
    (∃ r, s.Reduces devices x op new y r ∧ r.shape = new ∧ r.dtype = a.dtype
        ∧ ∀ i < new.prod, r.lanes[i]? = some ((a.dense.reduceFor op new
          (b.config.split.choose a.shape new b.tracker.axisStrides)).lane i))
      ∨ s.Stops devices x op new y ∧ ¬(s.engine.graph.Calm ∧ b.Roomy) := by
  obtain ⟨w, h⟩ := hs.exists_legible
  rcases step_cases (h.sat_reduction (b := b) id hb ha hfold hle op y) with
    ⟨_, hmet, w', c, t, hsound, hc, ⟨ht, hshows⟩, hmade⟩ | ⟨_, hrefused, rfl, hcalm⟩
  · obtain ⟨hdims, hlanes⟩ := Tensor.reduce_matches (h.isWhole_array hb ha hwhole) hfold ht
    rcases reads_shown hsound hc hshows with ⟨r, hr, hreads⟩ | ⟨hstopped, hbroad⟩
    · have hdtype := hlanes.dtype.trans (Dense.dtype_reduceFor ..)
      refine .inl ⟨r, ⟨by rw [hmet]; rfl, hr⟩, hreads.shape.trans hdims, hreads.dtype.trans hdtype, ?_⟩
      intro i hi
      rw [hreads.lanes i (hdims ▸ hi), hlanes.lane i hi]
      rfl
    · exact .inr ⟨.inr hstopped, fun hcalm => hbroad
        ⟨hsound.1.2.calm (Rule.isCalm_given hcalm), hmade hcalm⟩⟩
  · exact .inr ⟨.inl hrefused, hcalm⟩

/-- Two buffers are read back as the same whole numbers, and the second is never split. Reductions of
both that fit are read back as the same array unless the policy of the first splits a sum of 32-bit
integers so that rounding the groups changes it, or one of them is stopped: only where some view is not
calm, or the buffer has no elements and no room for an axis that is cut. -/
theorem Regular.reduces_alike_iff (hs : s.Regular devices) (hs' : s'.Regular devices')
    (hb : s.Names x b) (hb' : s'.Names x' b')
    (ha : (s.step devices (.readBack x)).1.result = .ok (.array a))
    (ha' : (s'.step devices' (.readBack x')).1.result = .ok (.array a)) (hwhole : a.dtype.IsWhole)
    (hdisabled : b'.config.split = .disabled)
    (hfold : List.Forall₂ (fun n m => n = m ∨ m = 1) a.shape new) (hle : new.prod ≤ 2 ^ 63)
    (op : ReduceOp) (y y' : String) :
    (∃ r r', s.Reduces devices x op new y r ∧ s'.Reduces devices' x' op new y' r'
        ∧ r.shape = new ∧ r'.shape = new ∧ r.dtype = a.dtype ∧ r'.dtype = a.dtype
        ∧ (r = r' ↔ (op = .sum → a.dtype = .i32 → ∀ split,
            b.config.split.choose a.shape new b.tracker.axisStrides = some split →
              a.dense.SplitsExactly split new)))
      ∨ (s.Stops devices x op new y ∧ ¬(s.engine.graph.Calm ∧ b.Roomy))
      ∨ (s'.Stops devices' x' op new y' ∧ ¬(s'.engine.graph.Calm ∧ b'.Roomy)) := by
  rcases hs.exists_reduction hb ha hwhole hfold hle op y with
    ⟨r, hr, hshape, hdtype, hlanes⟩ | hstops
  rotate_left
  · exact .inr (.inl hstops)
  rcases hs'.exists_reduction hb' ha' hwhole hfold hle op y' with
    ⟨r', hr', hshape', hdtype', hlanes'⟩ | hstops
  rotate_left
  · exact .inr (.inr hstops)
  refine .inl ⟨r, r', hr, hr', hshape, hshape', hdtype, hdtype', ?_⟩
  obtain ⟨w', h'⟩ := hs'.exists_legible
  have hx : a.dense.IsWhole := h'.isWhole_array hb' ha' hwhole
  have hnone : b'.config.split.choose a.shape new b'.tracker.axisStrides = none := by
    obtain ⟨n, -, hinto⟩ := (h'.shows_array hb' ha').into
    rw [hdisabled]
    exact SplitPolicy.choose_of_lt (Nat.lt_of_le_of_lt hinto.addressable (by decide)) ..
  have hsame : r = r' ↔ Dense.Matches new.prod (a.dense.reduceFor op new
      (b.config.split.choose a.shape new b.tracker.axisStrides)) (a.dense.reduce op new) := by
    rw [HostArray.eq_iff (hshape.trans hshape'.symm) (hdtype.trans hdtype'.symm), hshape]
    rw [hnone] at hlanes'
    constructor
    · refine fun h => ⟨Dense.dtype_reduceFor .., fun i hi => ?_⟩
      exact Option.some.inj ((hlanes i hi).symm.trans ((h i hi).trans (hlanes' i hi)))
    · intro h i hi
      rw [hlanes i hi, hlanes' i hi, h.lane i hi]
      rfl
  rw [hsame]
  exact hx.reduceFor_matches_iff hfold fun split => SplitPolicy.choose_eq_some

/-! ## A sum that is rounded too often -/

/-- The interpreter on one device. -/
def wholeDevices : Registry Whole := [("cpu", .interpreter "cpu" {} false .never)]

/-- The session that has uploaded six numbers under a policy. -/
def uploaded (p : SplitPolicy) : Session Whole :=
  (({} : Session Whole).step wholeDevices (.define "x" (.upload [2, 3] .i32
    #[.num 2147483647, .num (-1), .num 0, .num 1, .num 0, .num 0] "cpu" { split := p }))).2

/-- The session that has turned six numbers. -/
def turned (p : SplitPolicy) : Session Whole :=
  [.define "y" (.move "x" (.permute [1, 0])), .define "z" (.move "y" (.reshape (.ofNats [6])))].foldl
    (fun s c => (s.step wholeDevices c).2) (uploaded p)

/-- The six numbers. -/
def turnedArray : HostArray Whole :=
  ⟨[6], ⟨.i32, #[.num 2147483647, .num 1, .num (-1), .num 0, .num 0, .num 0]⟩, rfl⟩

/-- A single number. -/
def single (n : Int) : HostArray Whole := ⟨[1], ⟨.i32, #[.num n]⟩, rfl⟩

/-- The tracker of the turned numbers. -/
def turnedTracker : Tracker := ⟨.ofShape (.ofNats [6]), [⟨.ofNats [3, 2], [1, 3], 0, none⟩]⟩

/-- Whatever the policy, the numbers are turned. -/
theorem turned_spec (p : SplitPolicy) : (turned p).Regular wholeDevices
    ∧ ∃ b, (turned p).Names "z" b ∧ b.config.split = p ∧ b.tracker = turnedTracker := by
  have huploaded : (uploaded p).Regular wholeDevices := by
    refine .step .start ?_
    rintro _ _ ⟨⟩
    exact ⟨⟨"cpu", {}, false, rfl⟩, by decide⟩
  obtain ⟨x, hx, hconfig, htracker⟩ : ∃ b, (uploaded p).Names "x" b ∧ b.config.split = p
      ∧ b.tracker = .ofShape (.ofNats [2, 3]) :=
    ⟨_, by with_unfolding_all rfl, by with_unfolding_all rfl, by with_unfolding_all rfl⟩
  -- the movements do not look at the policy
  have hpermute : x.tracker.move (.permute [1, 0]) = .ok ⟨⟨.ofNats [3, 2], [1, 3], 0, none⟩, []⟩ := by
    rw [htracker]
    with_unfolding_all rfl
  have hpermuted : ((uploaded p).step wholeDevices _).2.Regular wholeDevices :=
    .step huploaded (hx.regular_move hpermute "y" rfl (by with_unfolding_all rfl) (by decide))
  obtain ⟨w, hlegible⟩ := huploaded.exists_legible
  obtain ⟨y, hy, hbase, hytracker⟩ := hlegible.names_move hx hpermute "y"
  have hreshape : y.tracker.move (.reshape (.ofNats [6])) = .ok turnedTracker := by
    rw [hytracker]
    with_unfolding_all rfl
  obtain ⟨w', hlegible'⟩ := hpermuted.exists_legible
  obtain ⟨z, hz, hbase', hztracker⟩ := hlegible'.names_move hy hreshape "z"
  refine ⟨.step hpermuted (hy.regular_move hreshape "z" rfl (by with_unfolding_all rfl) (by decide)),
    z, hz, ?_, hztracker⟩
  rw [Buffer.config, hbase', hbase]
  exact hconfig

theorem roomy_turned {b : Buffer} (h : b.tracker = turnedTracker) : b.Roomy where
  calm := h ▸ by decide +kernel
  roomy old hold := by
    have hshape : b.shape = .ofNats [6] := congrArg Tracker.shape h
    rw [hshape, Shape.static?_ofNats] at hold
    exact .inl (Option.some.inj hold ▸ by decide)

/-- Both policies give the same maximum. -/
theorem reduces_alike_turned : ∃ r, (turned ⟨0, 0, 0⟩).Reduces wholeDevices "z" .max [1] "m" r
    ∧ (turned .disabled).Reduces wholeDevices "z" .max [1] "m" r := by
  obtain ⟨hs, b, hb, -, htracker⟩ := turned_spec ⟨0, 0, 0⟩
  obtain ⟨hs', b', hb', hdisabled, htracker'⟩ := turned_spec .disabled
  have hfold : List.Forall₂ (fun n m => n = m ∨ m = 1) turnedArray.shape [1] := .cons (.inr rfl) .nil
  obtain ⟨r, r', hr, hr', -, -, -, -, hsame⟩ | ⟨-, hroomy⟩ | ⟨-, hroomy⟩ :=
    Regular.reduces_alike_iff hs hs' hb hb' (Reply.result_eq (by decide +kernel))
      (Reply.result_eq (by decide +kernel)) (.inl rfl) hdisabled hfold (by decide) .max "m" "m"
  · exact ⟨r, hr, hsame.mpr nofun ▸ hr'⟩
  · exact absurd ⟨by decide +kernel, roomy_turned htracker⟩ hroomy
  · exact absurd ⟨by decide +kernel, roomy_turned htracker'⟩ hroomy

/-- The sum of the six numbers is the largest that 32 bits hold, but the sum of the first two is larger;
it is stored as the largest, and the third number leads below. -/
theorem reduces_apart_turned :
    (∀ p, (turned p).Regular wholeDevices ∧ ∃ b, (turned p).Names "z" b ∧ b.config.split = p)
      ∧ ((turned ⟨0, 0, 0⟩).step wholeDevices (.readBack "z")).1.result = .ok (.array turnedArray)
      ∧ ((turned .disabled).step wholeDevices (.readBack "z")).1.result = .ok (.array turnedArray)
      ∧ (turned ⟨0, 0, 0⟩).Reduces wholeDevices "z" .sum [1] "m" (single 2147483646)
      ∧ (turned .disabled).Reduces wholeDevices "z" .sum [1] "m" (single 2147483647) :=
  ⟨fun p => (turned_spec p).imp_right fun ⟨b, hb, hconfig, _⟩ => ⟨b, hb, hconfig⟩,
    Reply.result_eq (by decide +kernel),
    Reply.result_eq (by decide +kernel),
    ⟨by decide +kernel, Reply.result_eq (by decide +kernel)⟩,
    ⟨by decide +kernel, Reply.result_eq (by decide +kernel)⟩⟩

end Session

end TensorGraph
