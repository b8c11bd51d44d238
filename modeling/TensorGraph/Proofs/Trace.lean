import TensorGraph.Proofs.Engine.Trace
import TensorGraph.Proofs.Meaning.Session
/-!
# The trace of calls

Buffers are realized and read back one after the other, and each call may fail or be refused. The
beginnings and ends of the units, over all calls, are nested like brackets, and a failure in a call
runs through the units around it up to the end of the call.

- `Session.Calls`: calls, one after the other, whose failures are errors.
- `Session.Recounts`: what their traces tell.
- `Session.Reachable.recounts`: calls on reachable sessions.
-/

namespace TensorGraph

open TensorGraph.Graph TensorGraph.Engine World

variable {α : Type} {W : Census} {s s' : Session α}

/-- The command realizes a buffer or reads one back. -/
inductive Command.Calls : Command α → Prop
  /-- It realizes a buffer. -/
  | realize (x : String) : Calls (.realize x)
  /-- It reads a buffer back. -/
  | readBack (x : String) : Calls (.readBack x)

/-- Whether the engine has ended with a failure that nothing handles: a loader has panicked, or
arithmetic has left the words. -/
def Reply.panics (r : Reply α) : Bool :=
  match r.result with
  | .error (.failed (.panic _)) | .error (.failed .overflow) => true
  | _ => false

/-- Of the beginning and the end of a unit: its number, and whether it has failed if it has ended. -/
def Event.mark? : Event α → Option (Nat × Option Bool)
  | .before context _ => some (context.number, none)
  | .after context failure => some (context.number, some failure.isSome)
  | .request _ _ _ => none

namespace Session

variable [Lane α] {devices : Registry α}

/-- A computation of the engine on a buffer with a name takes the session along. -/
theorem Orderly.course_engine (hs : s.Orderly W) {β : Type} {f : List Buffer → Buffer → Run α β}
    (hf : ∀ held b, W.Lists b → (f held b).Tells devices none s.engine fun _ _ => True)
    (answer : β → Answer α) (x : String) :
    Sat (do
      let b ← Act.buffer x
      return answer (← Act.engine (f (← Act.held) b))) s
      (fun _ s' => ∃ events failing, Course devices none s.engine s'.engine events failing)
      fun refusal s' => (∀ failure, refusal = .failed failure → ∃ cause, failure = .error cause) →
        ∃ events failing, Course devices none s.engine s'.engine events failing := by
  rw [sat_bind, Act.sat_buffer]
  cases hb : s.buffers.lookup x with
  | none => exact fun _ => ⟨[], false, .refl⟩
  | some b =>
    refine sat_bind.mpr (Act.sat_held.mpr (sat_bind.mpr (Act.sat_engine.mpr
      (Sat.imp (hf s.held b (Names.lists hb hs)) ?_ ?_))))
    · rintro result e ⟨⟨events, hcourse⟩, -⟩
      exact ⟨events, false, hcourse⟩
    · rintro failure e hfails hhandled
      obtain ⟨cause, rfl⟩ := hhandled failure rfl
      obtain ⟨events, hcourse⟩ := hfails cause rfl
      exact ⟨events, true, hcourse⟩

/-- The trace has got the events of the reply. -/
theorem Orderly.trace_step (hs : s.Orderly W) (devices : Registry α) (c : Command α) :
    (s.step devices c).2.engine.trace = s.engine.trace ++ (s.step devices c).1.trace := by
  obtain ⟨W', -, hadvances, -⟩ := orderly_step devices hs c
  obtain ⟨news, hjournal, -⟩ := hadvances.journal
  have hreply : (s.step devices c).1.trace = news.filter Event.isTrace := by
    change ((s.step devices c).2.engine.journal.drop s.engine.journal.length).filter _ = _
    rw [hjournal, List.drop_left]
  rw [hreply, Engine.trace, hjournal, List.filter_append]
  rfl

/-- A call whose failure, if it fails, is an error is a course of the engine, with the events of the
reply. -/
theorem Orderly.course (hs : s.Orderly W) {c : Command α} (hc : c.Calls)
    (hpanics : (s.step devices c).1.panics = false) :
    ∃ failing, Course devices none s.engine (s.step devices c).2.engine (s.step devices c).1.trace
      failing := by
  have hperform : Sat (c.perform devices) s
      (fun _ s' => ∃ events failing, Course devices none s.engine s'.engine events failing)
      fun refusal s' => (∀ failure, refusal = .failed failure → ∃ cause, failure = .error cause) →
        ∃ events failing, Course devices none s.engine s'.engine events failing := by
    cases hc with
    | realize x =>
      exact hs.course_engine (fun held _ hb => Buffer.tells_realize devices hs.1 hb held) _ x
    | readBack x =>
      exact hs.course_engine (fun held _ hb => Buffer.tells_readBack devices hs.1 hb held) _ x
  have hcourse : ∃ events failing,
      Course devices none s.engine (s.step devices c).2.engine events failing := by
    rcases step_cases hperform with ⟨_, -, hcourse⟩ | ⟨refusal, hrefused, hcourse⟩
    · exact hcourse
    · refine hcourse ?_
      rintro failure rfl
      rw [Reply.panics, hrefused] at hpanics
      cases failure with
      | error cause => exact ⟨cause, rfl⟩
      | panic | overflow => cases hpanics
  obtain ⟨events, failing, hcourse⟩ := hcourse
  obtain rfl := List.append_cancel_left (hcourse.told.trace.symm.trans (hs.trace_step devices c))
  exact ⟨failing, hcourse⟩

/-- Calls lead from `s` to another session, none of them with a failure that nothing handles, and have
the given replies. -/
inductive Calls (devices : Registry α) (s : Session α) : List (Reply α) → Session α → Prop
  /-- No call at all. -/
  | nil : Calls devices s [] s
  /-- One more call. -/
  | call {replies : List (Reply α)} {s' : Session α} {c : Command α} (h : Calls devices s replies s')
    (hc : c.Calls) (hpanics : (s'.step devices c).1.panics = false) :
    Calls devices s (replies ++ [(s'.step devices c).1]) (s'.step devices c).2

theorem Calls.reachable {replies : List (Reply α)} (h : s.Calls devices replies s')
    (hs : s.Reachable devices) : s'.Reachable devices := by
  induction h with
  | nil => exact hs
  | call _ _ _ ih => exact ih.step _

theorem Calls.told {replies : List (Reply α)} (h : s.Calls devices replies s')
    (hs : s.Reachable devices) :
    Told devices s.engine s'.engine (replies.flatMap Reply.trace) := by
  induction h with
  | nil => exact .quiet ⟨(List.append_nil _).symm, rfl, .refl _⟩
  | call h hc hpanics ih =>
    obtain ⟨W, hsound⟩ := (h.reachable hs).sound
    obtain ⟨failing, hcourse⟩ := hsound.course hc hpanics
    rw [List.flatMap_append, List.flatMap_singleton]
    exact ih.append hcourse.told

/-- Each call is a course of its own. -/
theorem Calls.course {replies before after : List (Reply α)} {reply : Reply α}
    (h : s.Calls devices replies s') (hs : s.Reachable devices)
    (heq : replies = before ++ reply :: after) :
    ∃ (e e' : Engine α) (failing : Bool), e.trace = s.engine.trace ++ before.flatMap Reply.trace
      ∧ s.engine.Precedes e ∧ e'.Precedes s'.engine ∧ Course devices none e e' reply.trace failing := by
  induction h generalizing after with
  | nil => simp at heq
  | call h hc hpanics ih =>
    obtain ⟨W, hsound⟩ := (h.reachable hs).sound
    obtain ⟨failing, hcourse⟩ := hsound.course hc hpanics
    rcases entry_append heq with ⟨rest, hold⟩ | ⟨last, rfl, hnew⟩
    · obtain ⟨e, e', failing, htrace, hbefore, hafter, hcall⟩ := ih hold
      exact ⟨e, e', failing, htrace, hbefore, hafter.trans hcourse.told.precedes, hcall⟩
    · obtain ⟨rfl, rfl⟩ := entry_singleton hnew
      rw [List.append_nil]
      exact ⟨_, _, failing, (h.told hs).trace, (h.told hs).precedes, .refl _, hcourse⟩

/-- What the traces of calls tell that lead from `s` to `s'`. -/
structure Recounts (devices : Registry α) (s : Session α) (replies : List (Reply α))
    (s' : Session α) : Prop where
  /-- Units are nested, have rising numbers, and are run as they say. -/
  told : Told devices s.engine s'.engine (replies.flatMap Reply.trace)
  /-- Every unit that has begun has ended once. -/
  once : (Event.ended (replies.flatMap Reply.trace)).Perm
    (Event.begun (replies.flatMap Reply.trace))
  /-- When a unit has failed, those around it fail too, and nothing else happens in the call, unless
  a loader goes on. -/
  falls : ∀ before reply after, replies = before ++ reply :: after →
    ∀ earlier context cause later, reply.trace = earlier ++ .after context (some cause) :: later →
      ∃ frames, Event.around [] (earlier ++ [.after context (some cause)]) = some frames
        ∧ Falls devices s.engine s'.engine (s.engine.trace ++ before.flatMap Reply.trace
            ++ (earlier ++ [.after context (some cause)])) frames later

/-- On every reachable session, calls tell of nested units. -/
theorem Reachable.recounts (hs : s.Reachable devices) {replies : List (Reply α)}
    (h : s.Calls devices replies s') : Recounts devices s replies s' where
  told := h.told hs
  once := by simpa using (Event.perm_of_around ((h.told hs).closed [])).symm
  falls before reply after heq earlier context cause later hfails := by
    obtain ⟨e, e', failing, htrace, hbefore, hafter, hcourse⟩ := h.course hs heq
    obtain ⟨inner, haround, hfalls⟩ := hcourse.falls hfails
    have hcall := hfalls s.engine s'.engine hbefore hafter [] [] fun _ => .done
    simp only [Option.toList_none, List.append_nil] at hcall
    exact ⟨inner, (haround []).trans (by rw [List.append_nil]), htrace ▸ hcall⟩

/-- A device that stores arrays and runs nothing, beside one that does both. -/
def storeAndHost : Registry Int :=
  [("store", .interpreter "store" {} false fun _ _ _ => some (.error (.execution "no units"))),
    ("cpu", .interpreter "cpu" {} false .never)]

/-- The loader that always has the same result, whatever comes of reading its first source. -/
def careless : Loader Int where
  script _ _
    | [] => .finish (.constant 5 .i32)
    | _ :: _ => .read 0 fun _ => .finish (.constant 5 .i32)

/-- A copy of the result of a loader that reads what cannot be computed. -/
def sparedCopy : Session Int :=
  let run (s : Session Int) (c : Command Int) : Session Int := (s.step storeAndHost c).2
  let s := run {} (.define "x" (.upload [1] .i32 #[3] "store" {}))
  let s := run s (.define "y" (.move "x" (.pad [⟨1, 0⟩])))
  let s := run s (.define "z"
    (.load .custom (.ofNats [1]) .i32 "cpu" (.ok (.loader careless)) ["y"] {}))
  run s (.define "c" (.load .copy (.ofNats [1]) .i32 "cpu" (.ok .none) ["z"] {}))

/-- The unit inside the loader fails, and those around it do not; in the next call the same unit fails
with no unit around it. -/
theorem recounts_sparedCopy : ∃ replies s', sparedCopy.Calls storeAndHost replies s'
    ∧ (replies.flatMap Reply.trace).map Event.mark? = [some (1, none), some (2, none), some (3, none),
      some (3, some true), some (2, some false), some (1, some false), some (4, none),
      some (4, some true)]
    ∧ sparedCopy.Recounts storeAndHost replies s' := by
  have hs : sparedCopy.Reachable storeAndHost := .step (.step (.step (.step .start _) _) _) _
  have hcalls : sparedCopy.Calls storeAndHost _ _ :=
    .call (.call .nil (.realize "c") (by decide +kernel)) (.readBack "y") (by decide +kernel)
  exact ⟨_, _, hcalls, by decide +kernel, hs.recounts hcalls⟩

end Session

end TensorGraph
