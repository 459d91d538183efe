import Mathlib.Logic.Relation
import StagedScript.Compile.Task

/-!
# Answers at any moment

The calls of a compilation are answered by others, who may answer while the call is being made, when
the compilation has come to rest, or when it has long gone on; and they may answer again.  A loop
first takes what is next, and then works on it while nothing is next, so that answers can arrive,
and other loops look, in between.
-/

namespace StagedScript

namespace Task

/-- What a loop over the rounds of a compilation does. -/
inductive Loop where
  | looking
  /-- It works on what it has taken, which is nothing if nothing was next. -/
  | working (taken : Option Phase)

/-- A compilation with the loops over its rounds and the calls it has made. -/
structure Shared where
  task : Task
  /-- Whether nothing is next, because a loop has taken it. -/
  isTaken : Bool
  loops : List Loop
  calls : List EvalCall

namespace Shared

def callsOf : Phase → List EvalCall
  | .wait call => [call]
  | _ => []

/-- Whether a loop goes on after a round, or after an answer that found no loop. -/
def loopsOf (isActive : Bool) : List Loop := if isActive then [.looking] else []

def nothingNext : SourceError :=
  .plain .internal ⟨[], 0⟩ "compilation step left no continuation"

/-- A step of a loop, an answer, or a computation of the evaluator.  A round that gets stuck takes
everything down, so nothing follows it. -/
inductive Step (settings : Settings) : Shared → Shared → Prop where
  | rest {t : Task} {call : EvalCall} (before after : List Loop) (calls : List EvalCall)
      (hwait : t.phase = .wait call) :
      Step settings ⟨t, false, before ++ .looking :: after, calls⟩
        ⟨t.advance settings, false, before ++ after, calls⟩
  | take {t : Task} (before after : List Loop) (calls : List EvalCall)
      (hwait : ∀ call, t.phase ≠ .wait call) :
      Step settings ⟨t, false, before ++ .looking :: after, calls⟩
        ⟨t, true, before ++ .working (some t.phase) :: after, calls⟩
  | takeNothing (t : Task) (before after : List Loop) (calls : List EvalCall) :
      Step settings ⟨t, true, before ++ .looking :: after, calls⟩
        ⟨t, true, before ++ .working none :: after, calls⟩
  /-- A loop finishes its round.  When the compilation has reported, nothing is next. -/
  | work {t t' : Task} {phase : Phase} (isTaken : Bool) (before after : List Loop)
      (calls : List EvalCall) (hround : advance settings { t with phase } = t')
      (hgoes : t'.phase ≠ .stuck) :
      Step settings ⟨t, isTaken, before ++ .working (some phase) :: after, calls⟩
        ⟨t', t'.phase matches .reported, before ++ loopsOf t'.active ++ after,
          callsOf t'.phase ++ calls⟩
  /-- A loop that has found nothing next lets the compilation fail. -/
  | workNothing (t : Task) (isTaken : Bool) (before after : List Loop) (calls : List EvalCall) :
      Step settings ⟨t, isTaken, before ++ .working none :: after, calls⟩
        ⟨{ t with phase := .fail nothingNext }, false, before ++ .looking :: after, calls⟩
  /-- A call is answered, for the first time or again. -/
  | answer (t : Task) (loops : List Loop) {calls : List EvalCall} {call : EvalCall} {a : Answer}
      (hcall : call ∈ calls) (ha : a ≠ .stuck) :
      Step settings ⟨t, false, loops, calls⟩
        ⟨t.deliver a, false, loops ++ loopsOf ((t.deliver a).active && !t.active), calls⟩
  /-- An answer that arrives while a loop works is ignored. -/
  | ignore (t : Task) (loops : List Loop) {calls : List EvalCall} {call : EvalCall} (a : Answer)
      (hcall : call ∈ calls) :
      Step settings ⟨t, true, loops, calls⟩ ⟨t, true, loops, calls⟩
  /-- The evaluator changes the heap, or time passes. -/
  | compute (t : Task) (isTaken : Bool) (loops : List Loop) (calls : List EvalCall) (heap : Heap)
      (cancellation : Cancellation) :
      Step settings ⟨t, isTaken, loops, calls⟩
        ⟨{ t with state := { t.state with heap }, cancellation }, isTaken, loops, calls⟩

/-- The compilation waits for an answer to a call that it has made. -/
def Waits (x : Shared) : Prop :=
  x.isTaken = false ∧ ∃ call ∈ x.calls, x.task.phase = .wait call

/-- Either one loop carries the compilation on, and it has not reported, or there is no loop. -/
inductive Orderly : Shared → Prop where
  | looking {x : Shared} (hloops : x.loops = [.looking]) (hactive : x.task.active = true)
      (hnext : x.isTaken = false) (hreports : x.task.reports = [])
      (hphase : x.task.phase ≠ .reported) (hcalls : callsOf x.task.phase ⊆ x.calls) : Orderly x
  | working {x : Shared} {phase : Phase} (hloops : x.loops = [.working (some phase)])
      (hactive : x.task.active = true) (hnext : x.isTaken = true) (hreports : x.task.reports = [])
      (hphase : phase ≠ .reported) (hwait : ∀ call, phase ≠ .wait call) : Orderly x
  | waiting {x : Shared} (hloops : x.loops = []) (hactive : x.task.active = false)
      (hreports : x.task.reports = []) (hwaits : x.Waits) : Orderly x
  | reported {x : Shared} (hloops : x.loops = []) (hnext : x.isTaken = true)
      (hreports : x.task.reports.length = 1) : Orderly x

end Shared

open Shared

variable {settings : Settings}

/-! ### One round -/

variable {t : Task} {ev : Evaluator}

/-- What a round leaves: a compilation that goes on, has reported, or is stuck. -/
inductive Left (reports : List (Except SourceError Func)) (t : Task) : Prop where
  | goes (hactive : t.active = true) (hphase : t.phase ≠ .reported) (hstuck : t.phase ≠ .stuck)
      (hreports : t.reports = reports)
  | reported (hactive : t.active = false) (hphase : t.phase = .reported)
      (hreports : t.reports.length = reports.length + 1)
  | stuck (hactive : t.active = false) (hphase : t.phase = .stuck) (hreports : t.reports = reports)

theorem afterAction_left (cancellation : Cancellation) (reports : List (Except SourceError Func))
    (r : EStateM.Result Trouble CompileState Next) :
    Left reports (afterAction cancellation reports r) := by
  match r with
  | .ok next s => cases next <;> exact .goes rfl nofun nofun rfl
  | .error (.error e) s => exact .goes rfl nofun nofun rfl
  | .error .stuck s => exact .stuck rfl rfl rfl

theorem advance_left (settings : Settings) (hactive : t.active = true)
    (hphase : t.phase ≠ .reported) (hwait : ∀ call, t.phase ≠ .wait call) :
    Left t.reports (t.advance settings) := by
  obtain ⟨phase, active, state, cancellation, reports⟩ := t
  obtain rfl : active = true := hactive
  cases phase with
  | compile e =>
    unfold advance
    dsimp only
    split
    · exact .goes rfl nofun nofun rfl
    · exact afterAction_left ..
  | give v => exact afterAction_left ..
  | fail e | finish fn => exact .reported rfl rfl rfl
  | wait call => exact absurd rfl (hwait call)
  | reported => exact absurd rfl hphase
  | stuck => exact .stuck rfl rfl rfl

/-- What an answer does to a compilation that waits. -/
theorem deliver_wait {call : EvalCall} (hwait : t.phase = .wait call) {a : Answer}
    (ha : a ≠ .stuck) :
    (t.deliver a).active = true ∧ (t.deliver a).phase ≠ .reported ∧
      (∀ call, (t.deliver a).phase ≠ .wait call) ∧ (t.deliver a).reports = t.reports := by
  unfold deliver
  rw [hwait]
  cases a with
  | stuck => exact absurd rfl ha
  | _ => exact ⟨rfl, nofun, nofun, rfl⟩

theorem deliver_of_not_wait (hwait : ∀ call, t.phase ≠ .wait call) (a : Answer) :
    t.deliver a = t := by
  unfold deliver
  split
  · rename_i call h
    exact absurd h (hwait call)
  · rfl

theorem callsOf_eq_nil {phase : Phase} (hwait : ∀ call, phase ≠ .wait call) :
    callsOf phase = [] := by
  cases phase with
  | wait call => exact absurd rfl (hwait call)
  | _ => rfl

/-! ### All steps -/

theorem split_singleton {before after : List Loop} {l m : Loop}
    (h : before ++ l :: after = [m]) : before = [] ∧ l = m ∧ after = [] := by
  cases before with
  | nil => exact ⟨rfl, List.cons.inj h⟩
  | cons b before => simp at h

namespace Shared

section

variable {taken : Bool} {before after : List Loop} {calls : List EvalCall}

/-- If a loop looks at what is next, it is the only one. -/
theorem Orderly.of_looking (hx : Orderly ⟨t, taken, before ++ .looking :: after, calls⟩) :
    before = [] ∧ after = [] ∧ taken = false ∧ t.active = true ∧ t.reports = [] ∧
      t.phase ≠ .reported ∧ callsOf t.phase ⊆ calls := by
  cases hx with
  | looking hloops hactive hnext hreports hphase hcalls =>
    obtain ⟨rfl, -, rfl⟩ := split_singleton hloops
    exact ⟨rfl, rfl, hnext, hactive, hreports, hphase, hcalls⟩
  | working hloops => cases (split_singleton hloops).2.1
  | waiting hloops | reported hloops => simp at hloops

/-- If a loop works, it is the only one, and it works on a round. -/
theorem Orderly.of_working {o : Option Phase}
    (hx : Orderly ⟨t, taken, before ++ .working o :: after, calls⟩) :
    before = [] ∧ after = [] ∧ taken = true ∧ t.active = true ∧ t.reports = [] ∧
      ∃ phase, o = some phase ∧ phase ≠ .reported ∧ ∀ call, phase ≠ .wait call := by
  cases hx with
  | looking hloops => cases (split_singleton hloops).2.1
  | working hloops hactive hnext hreports hphase hwait =>
    obtain ⟨rfl, hl, rfl⟩ := split_singleton hloops
    exact ⟨rfl, rfl, hnext, hactive, hreports, _, Loop.working.inj hl, hphase, hwait⟩
  | waiting hloops | reported hloops => simp at hloops

end

theorem Orderly.step {x y : Shared} (hx : x.Orderly) (h : Step settings x y) : y.Orderly := by
  cases h with
  | @rest t call before after calls hwait =>
    obtain ⟨rfl, rfl, -, -, hreports, -, hcalls⟩ := hx.of_looking
    obtain ⟨phase, active, state, cancellation, reports⟩ := t
    obtain rfl : phase = .wait call := hwait
    exact .waiting rfl rfl hreports ⟨rfl, call, hcalls (List.mem_singleton_self call), rfl⟩
  | take before after calls hwait =>
    obtain ⟨rfl, rfl, -, hactive, hreports, hphase, -⟩ := hx.of_looking
    exact .working rfl hactive rfl hreports hphase hwait
  | takeNothing => cases hx.of_looking.2.2.1
  | @work t t' phase isTaken before after calls hround hgoes =>
    obtain ⟨rfl, rfl, -, hactive, hreports, _, ⟨⟩, hphase, hwait⟩ := hx.of_working
    subst hround
    cases advance_left (t := { t with phase }) settings hactive hphase hwait with
    | goes hactive' hphase' _ hreports' =>
      refine .looking ?_ hactive' ?_ (hreports'.trans hreports) hphase'
        (List.subset_append_left _ _)
      · simp [loopsOf, hactive']
      · cases hp : (advance settings { t with phase }).phase with
        | reported => exact absurd hp hphase'
        | _ => rfl
    | reported hactive' hphase' hreports' =>
      refine .reported ?_ ?_ ?_
      · simp [loopsOf, hactive']
      · simp [hphase']
      · exact hreports'.trans (by rw [hreports]; rfl)
    | stuck _ hstuck => exact absurd hstuck hgoes
  | workNothing =>
    obtain ⟨-, -, -, -, -, _, h, -⟩ := hx.of_working
    cases h
  | @answer t loops calls call a hcall ha =>
    -- Only a compilation that waits takes the answer; a loop is started if there is none.
    by_cases hwait : ∃ call, t.phase = .wait call
    · obtain ⟨asked, hasked⟩ := hwait
      obtain ⟨hactive', hphase', hwait', hreports'⟩ := deliver_wait hasked ha
      have hcalls' : callsOf (t.deliver a).phase ⊆ calls := by
        rw [callsOf_eq_nil hwait']
        exact List.nil_subset _
      cases hx with
      | looking hloops hactive hnext hreports =>
        obtain rfl : loops = [.looking] := hloops
        have hactive : t.active = true := hactive
        refine .looking ?_ hactive' rfl (hreports'.trans hreports) hphase' hcalls'
        simp [loopsOf, hactive]
      | waiting hloops hactive hreports =>
        obtain rfl : loops = [] := hloops
        have hactive : t.active = false := hactive
        refine .looking ?_ hactive' rfl (hreports'.trans hreports) hphase' hcalls'
        simp [loopsOf, hactive, hactive']
      | working hloops hactive hnext | reported hloops hnext => cases hnext
    · rw [deliver_of_not_wait (not_exists.1 hwait)]
      simpa [loopsOf] using hx
  | ignore => exact hx
  | compute t isTaken loops calls heap cancellation =>
    cases hx with
    | looking hloops hactive hnext hreports hphase hcalls =>
      exact .looking hloops hactive hnext hreports hphase hcalls
    | working hloops hactive hnext hreports hphase hwait =>
      exact .working hloops hactive hnext hreports hphase hwait
    | waiting hloops hactive hreports hwaits => exact .waiting hloops hactive hreports hwaits
    | reported hloops hnext hreports => exact .reported hloops hnext hreports

def start (settings : Settings) (heap : Heap) (cancellation : Cancellation) (root : Expr) :
    Shared :=
  ⟨Task.start settings heap cancellation root, false, [.looking], []⟩

/-- What loops and answers can make of a compilation. -/
def Reachable (settings : Settings) : Shared → Shared → Prop :=
  Relation.ReflTransGen (Step settings)

theorem start_orderly (settings : Settings) (heap : Heap) (cancellation : Cancellation)
    (root : Expr) : (start settings heap cancellation root).Orderly :=
  .looking rfl rfl rfl rfl nofun (List.nil_subset _)

theorem Orderly.reachable {x y : Shared} (hx : x.Orderly) (h : Reachable settings x y) :
    y.Orderly := by
  induction h with
  | refl => exact hx
  | tail _ hstep ih => exact ih.step hstep

/-- What a loop works on is that which was next. -/
def Takes (x : Shared) : Prop := ∀ phase, .working (some phase) ∈ x.loops → x.task.phase = phase

theorem start_takes (settings : Settings) (heap : Heap) (cancellation : Cancellation)
    (root : Expr) : (start settings heap cancellation root).Takes := by
  simp [Takes, start]

/-- A step is a round or an answer, or it changes at most the heap and the time; and the heap only if
no loop makes it. -/
theorem Takes.step {x y : Shared} (ht : x.Takes) (hx : x.Orderly) (h : Step settings x y) : y.Takes ∧
    ((∃ heap cancellation,
        y.task = { x.task with state := { x.task.state with heap }, cancellation } ∧
          (x.loops = y.loops ∨ heap = x.task.state.heap)) ∨
      y.task = x.task.advance settings ∨
      ∃ call a, x.isTaken = false ∧ x.task.phase = .wait call ∧ y.task = x.task.deliver a) := by
  cases h with
  | rest =>
    obtain ⟨rfl, rfl, -⟩ := hx.of_looking
    exact ⟨nofun, .inr (.inl rfl)⟩
  | take =>
    obtain ⟨rfl, rfl, -⟩ := hx.of_looking
    exact ⟨fun _ h => by simpa [eq_comm] using h, .inl ⟨_, _, rfl, .inr rfl⟩⟩
  | takeNothing => cases hx.of_looking.2.2.1
  | workNothing =>
    obtain ⟨-, -, -, -, -, _, h, -⟩ := hx.of_working
    cases h
  | @work t _ phase _ _ _ _ hround =>
    obtain ⟨rfl, rfl, -⟩ := hx.of_working
    obtain rfl : t.phase = phase := ht phase List.mem_cons_self
    refine ⟨fun _ h => ?_, .inr (.inl hround.symm)⟩
    simp [loopsOf] at h
  | @answer t loops calls call a hcall ha =>
    -- A loop that works has taken what is next, and the answer would be ignored.
    have hnone (phase : Phase) (h : .working (some phase) ∈ loops) : False := by
      obtain ⟨before, after, rfl⟩ := List.append_of_mem h
      cases hx.of_working.2.2.1
    refine ⟨fun phase h => (hnone phase ?_).elim, ?_⟩
    · simpa [loopsOf] using h
    · by_cases hwait : ∃ call, t.phase = .wait call
      · obtain ⟨asked, hasked⟩ := hwait
        exact .inr (.inr ⟨asked, a, rfl, hasked, rfl⟩)
      · rw [deliver_of_not_wait (not_exists.1 hwait)]
        exact .inl ⟨_, _, rfl, .inr rfl⟩
  | ignore | compute => exact ⟨ht, .inl ⟨_, _, rfl, .inl rfl⟩⟩

/-- A compilation in time, in which now and then nothing happens.  The steps of others are such as a
relation says. -/
structure History (settings : Settings) (conduct : Shared → Shared → Prop) (first : Shared)
    (states : Nat → Shared) : Prop where
  zero : states 0 = first
  succ : ∀ n, states (n + 1) = states n ∨
    Step settings (states n) (states (n + 1)) ∧ conduct (states n) (states (n + 1))

theorem History.all {conduct : Shared → Shared → Prop} {first : Shared} {states : Nat → Shared}
    (h : History settings conduct first states) {P : Shared → Prop} (hfirst : P first)
    (hstep : ∀ {x y}, P x → Step settings x y → conduct x y → P y) (n : Nat) : P (states n) := by
  induction n with
  | zero =>
    rw [h.zero]
    exact hfirst
  | succ n ih =>
    obtain heq | ⟨hnext, hconduct⟩ := h.succ n
    · rwa [heq]
    · exact hstep ih hnext hconduct

/-- The next step of a loop, if it is the only one. -/
def next (settings : Settings) : Shared → Shared
  | ⟨t, false, [.looking], calls⟩ =>
    match t.phase with
    | .wait _ => ⟨t.advance settings, false, [], calls⟩
    | phase => ⟨t, true, [.working (some phase)], calls⟩
  | ⟨t, true, [.working (some phase)], calls⟩ =>
    let t' := advance settings { t with phase }
    if t'.phase matches .stuck then ⟨t, true, [.working (some phase)], calls⟩
    else ⟨t', t'.phase matches .reported, loopsOf t'.active, callsOf t'.phase ++ calls⟩
  | x => x

def answered (a : Answer) : Shared → Shared
  | ⟨t, false, loops, call :: calls⟩ =>
    ⟨t.deliver a, false, loops ++ loopsOf ((t.deliver a).active && !t.active), call :: calls⟩
  | x => x

/-- A compilation that is carried on by one loop and gets answers at some times. -/
def play (settings : Settings) (answer? : Nat → Option Answer) (first : Shared) : Nat → Shared
  | 0 => first
  | n + 1 => ((answer? n).elim (next settings) answered) (play settings answer? first n)

theorem next_step (settings : Settings) (x : Shared) : x.next settings = x ∨
    Step settings x (x.next settings) ∧ x.loops ≠ (x.next settings).loops ∧
      ∀ call, x.isTaken = false → x.task.phase = .wait call →
        (x.next settings).task.phase = .wait call := by
  unfold next
  split
  · rename_i t calls
    dsimp only
    split
    · rename_i asked hwait
      obtain ⟨phase, active, state, cancellation, reports⟩ := t
      cases hwait
      exact .inr ⟨.rest [] [] calls rfl, nofun, fun _ _ h => h⟩
    · rename_i hwait
      exact .inr ⟨.take [] [] calls hwait, nofun, fun call _ h => absurd h (hwait call)⟩
  · rename_i t phase calls
    dsimp only
    split
    · exact .inl rfl
    · rename_i hgoes
      have hstep : Step settings ⟨t, true, [] ++ .working (some phase) :: [], calls⟩ _ :=
        .work true [] [] calls rfl fun hstuck => by simp [hstuck] at hgoes
      rw [List.nil_append, List.append_nil] at hstep
      refine .inr ⟨hstep, fun hloops => ?_, nofun⟩
      have hnot (isActive : Bool) : [.working (some phase)] ≠ loopsOf isActive := by
        cases isActive <;> nofun
      exact hnot _ hloops
  · exact .inl rfl

theorem play_history {settings : Settings} {answer? : Nat → Option Answer} (first : Shared)
    {conduct : Shared → Shared → Prop} (hanswers : ∀ n, answer? n ≠ some .stuck)
    (hconduct : ∀ x y, (x.loops = y.loops → y.task.state = x.task.state) →
      (∀ call v, x.isTaken = false → x.task.phase = .wait call → y.task.phase = .give v →
        ∃ n, answer? n = some (.value v)) → conduct x y) :
    History settings conduct first (play settings answer? first) := by
  refine ⟨rfl, fun n => ?_⟩
  rw [play]
  generalize play settings answer? first n = x
  cases ha : answer? n with
  | none =>
    refine (next_step settings x).imp_right fun ⟨hstep, hloops, hwaits⟩ => ⟨hstep, hconduct _ _
      (fun h => absurd h hloops) fun call v htaken hwait hgive => ?_⟩
    cases (hwaits call htaken hwait).symm.trans hgive
  | some a =>
    rw [Option.elim_some]
    unfold answered
    split
    · rename_i t loops call calls
      refine .inr ⟨.answer t loops List.mem_cons_self fun h => hanswers n (h ▸ ha), hconduct _ _
        (fun _ => ?_) fun asked v _ hwait hgive => ⟨n, ?_⟩⟩ <;> unfold deliver at *
      · split
        · cases a <;> rfl
        · rfl
      · rw [show t.phase = _ from hwait] at hgive
        cases a <;> cases hgive
        exact ha
    · exact .inl rfl

end Shared

/-! ### Rounds and answers in turn -/

theorem deliver_active (hactive : t.active = true) {a : Answer} (ha : a ≠ .stuck) :
    (t.deliver a).active = true := by
  by_cases hwait : ∃ call, t.phase = .wait call
  · obtain ⟨call, hcall⟩ := hwait
    exact (deliver_wait hcall ha).1
  · rwa [deliver_of_not_wait (not_exists.1 hwait)]

theorem run_of_inactive {fuel : Nat} (h : t.active = false) :
    run settings ev fuel (t.evaluate ev) = t := by
  have hevaluate : t.evaluate ev = t := by
    obtain ⟨phase, active, state, cancellation, reports⟩ := t
    obtain rfl : active = false := h
    cases phase <;> rfl
  rw [hevaluate]
  cases fuel with
  | zero => rfl
  | succ fuel => rw [run, if_neg (by simp [h])]

namespace Shared

variable {calls : List EvalCall} {t : Task}

/-- Answers that arrive while a loop is about to look. -/
theorem reachable_deliverAll (settings : Settings) {call : EvalCall} (hcall : call ∈ calls)
    {answers : List Answer} (hanswers : .stuck ∉ answers) (hactive : t.active = true) :
    Reachable settings ⟨t, false, [.looking], calls⟩
      ⟨answers.foldl deliver t, false, [.looking], calls⟩ := by
  induction answers generalizing t with
  | nil => exact .refl
  | cons a answers ih =>
    rw [List.mem_cons, not_or] at hanswers
    obtain ⟨ha, hanswers⟩ := hanswers
    refine .head ?_ (ih hanswers (deliver_active hactive (Ne.symm ha)))
    simpa [loopsOf, hactive] using Step.answer t [.looking] hcall (Ne.symm ha)

/-- The answers of an evaluator arrive while the loop that made the call is about to look. -/
theorem reachable_evaluate (settings : Settings)
    (hev : ∀ call heap cancellation, .stuck ∉ (ev call heap cancellation).answers)
    (hcalls : callsOf t.phase ⊆ calls) :
    Reachable settings ⟨t, false, [.looking], calls⟩
      ⟨t.evaluate ev, false, [.looking], calls⟩ := by
  unfold evaluate
  split
  · rename_i call state cancellation reports
    exact .head (.compute _ _ _ _ _ _)
      (reachable_deliverAll settings (hcalls (List.mem_singleton_self call)) (hev _ _ _) rfl)
  · exact .refl

/-- A round of a loop that finds the compilation not waiting. -/
theorem reachable_advance (ht : Orderly ⟨t, false, [.looking], calls⟩)
    (hwait : ∀ call, t.phase ≠ .wait call) (hgoes : (t.advance settings).phase ≠ .stuck) :
    ∃ x : Shared, x.task = t.advance settings ∧ Reachable settings ⟨t, false, [.looking], calls⟩ x ∧
      (x.task.active = true → x.isTaken = false ∧ x.loops = [.looking]) := by
  have htake : Step settings ⟨t, false, [.looking], calls⟩
      ⟨t, true, [.working (some t.phase)], calls⟩ := .take [] [] calls hwait
  have hwork : Step settings ⟨t, true, [.working (some t.phase)], calls⟩
      ⟨t.advance settings, (t.advance settings).phase matches .reported,
        loopsOf (t.advance settings).active ++ [], callsOf (t.advance settings).phase ++ calls⟩ :=
    .work true [] [] calls rfl hgoes
  have hreach := Relation.ReflTransGen.head htake (.single hwork)
  refine ⟨_, rfl, hreach, fun hactive => ?_⟩
  have hactive : (t.advance settings).active = true := hactive
  cases ht.reachable hreach with
  | looking hloops _ hnext => exact ⟨hnext, hloops⟩
  | working hloops | reported hloops => simp [loopsOf, hactive] at hloops
  | waiting _ hinactive => rw [hactive] at hinactive; cases hinactive

end Shared

section

variable (hev : ∀ call heap cancellation, .stuck ∉ (ev call heap cancellation).answers) (fuel : Nat)
  {calls : List EvalCall} (ht : Orderly ⟨t, false, [.looking], calls⟩)

include hev ht

variable (settings) in
/-- If the evaluator answers every call, the rounds and answers of `Task.run` are steps of loops and
answers, or it gets stuck without a report. -/
theorem run_cases :
    (∃ x : Shared, x.task = run settings ev fuel t ∧
      Reachable settings ⟨t, false, [.looking], calls⟩ x) ∨
    (run settings ev fuel t).phase = .stuck ∧ (run settings ev fuel t).reports = [] := by
  induction fuel generalizing t calls with
  | zero => exact .inl ⟨_, rfl, .refl⟩
  | succ fuel ih =>
    obtain ⟨-, -, -, hactive, hreports, hphase, -⟩ := @Orderly.of_looking t _ [] [] _ ht
    rw [run, if_pos hactive]
    -- a call without an answer leaves the compilation at rest
    by_cases hwait : ∃ call, t.phase = .wait call
    · obtain ⟨call, hcall⟩ := hwait
      refine .inl ⟨_, ?_, .single (.rest [] [] calls hcall)⟩
      obtain ⟨phase, active, state, cancellation, reports⟩ := t
      obtain rfl : phase = .wait call := hcall
      cases fuel <;> rfl
    · replace hwait := not_exists.1 hwait
      cases advance_left settings hactive hphase hwait with
      | goes hactive' _ hstuck =>
        obtain ⟨⟨t', isTaken, loops, calls'⟩, rfl, hreach, hloop⟩ :=
          reachable_advance ht hwait hstuck
        obtain ⟨rfl, rfl⟩ := hloop hactive'
        obtain ⟨-, -, -, -, -, -, hcalls⟩ := @Orderly.of_looking _ _ [] [] _ (ht.reachable hreach)
        have hreach' := hreach.trans (reachable_evaluate settings hev hcalls)
        refine (ih (ht.reachable hreach')).imp_left fun ⟨x, hx, hrest⟩ => ?_
        exact ⟨x, hx, hreach'.trans hrest⟩
      | reported hactive' hphase' =>
        rw [run_of_inactive hactive']
        obtain ⟨x, hx, hreach, -⟩ := reachable_advance ht hwait (by rw [hphase']; nofun)
        exact .inl ⟨x, hx, hreach⟩
      | stuck hactive' hphase' hreports' =>
        rw [run_of_inactive hactive']
        exact .inr ⟨hphase', hreports'.trans hreports⟩

theorem reachable_run (hgoes : (run settings ev fuel t).phase ≠ .stuck) :
    ∃ x : Shared, x.task = run settings ev fuel t ∧
      Reachable settings ⟨t, false, [.looking], calls⟩ x :=
  (run_cases settings hev fuel ht).resolve_right fun h => hgoes h.1

end

/-- An error of a tree was reported, or the compilation waits for an answer that never comes. -/
theorem reachable_compileTree {globals : Globals} {blockSize : Int} {heap : Heap}
    {cancellation : Cancellation} {tree : Expr} {e : SourceError}
    (hev : ∀ call heap cancellation, .stuck ∉ (ev call heap cancellation).answers)
    (h : (compileTree globals blockSize ev heap cancellation tree).outcome = .error e) :
    let root := rootOf tree
    let settings : Settings := ⟨globals, blockSize, root.span?.getD ⟨[], 0, 0⟩⟩
    ∃ x, Reachable settings (.start settings heap cancellation root) x ∧
      (.error e ∈ x.task.reports ∨
        (∃ call, x.task.phase = .wait call) ∧ e = cancelledAt settings.root.position) := by
  intro root settings
  have hcases := run_cases settings hev roundLimit (start_orderly settings heap cancellation root)
  unfold compileTree at h
  dsimp only at h
  generalize run settings ev roundLimit (Task.start settings heap cancellation root) = t at h hcases
  obtain ⟨x, rfl, hreach⟩ | ⟨hphase, hreports⟩ := hcases
  · refine ⟨x, hreach, ?_⟩
    split at h
    case h_2 hreports =>
      cases h
      exact .inl (hreports ▸ List.mem_cons_self)
    case h_3 call hwait _ =>
      cases h
      exact .inr ⟨⟨call, hwait⟩, rfl⟩
    all_goals cases h
  · rw [hphase, hreports] at h
    cases h

/-! ### Reports -/

/-- A compilation reports at most once, is carried on by at most one loop, and is left by its loop
only when it waits for an answer to a call or has reported. -/
theorem reports_exactly_once {heap : Heap} {cancellation : Cancellation} {root : Expr} {x : Shared}
    (hx : Reachable settings (Shared.start settings heap cancellation root) x) :
    x.task.reports.length ≤ 1 ∧ x.loops.length ≤ 1 ∧
      (x.loops = [] → x.Waits ∧ x.task.reports = [] ∨ x.task.reports.length = 1) := by
  cases (start_orderly settings heap cancellation root).reachable hx with
  | looking hloops _ _ hreports | working hloops _ _ hreports => simp [hloops, hreports]
  | waiting hloops _ hreports hwaits => simp [hloops, hreports, hwaits]
  | reported hloops _ hreports => simp [hloops, hreports]

/-- A constant whose call is answered twice is reported once. -/
theorem reports_exactly_once_of_second_answer :
    ∃ x : Shared, Reachable ⟨.empty, 4, ⟨"t", 1, 1⟩⟩
        (Shared.start ⟨.empty, 4, ⟨"t", 1, 1⟩⟩ {} .never (.inline ⟨"t", 1, 1⟩ (.nil ⟨"t", 1, 1⟩))) x ∧
      x.task.phase = .reported ∧ x.task.reports.length ≤ 1 ∧ x.loops.length ≤ 1 ∧
      (x.loops = [] → x.Waits ∧ x.task.reports = [] ∨ x.task.reports.length = 1) := by
  have hreported : (run ⟨.empty, 4, ⟨"t", 1, 1⟩⟩ (.always [.value (.int 1), .value (.int 2)]) 20
      (Task.start ⟨.empty, 4, ⟨"t", 1, 1⟩⟩ {} .never
        (.inline ⟨"t", 1, 1⟩ (.nil ⟨"t", 1, 1⟩)))).phase = .reported := rfl
  have hanswers (call : EvalCall) (heap : Heap) (cancellation : Cancellation) : .stuck ∉
      (Evaluator.always [.value (.int 1), .value (.int 2)] call heap cancellation).answers := by
    simp [Evaluator.always]
  obtain ⟨x, hx, hreach⟩ := reachable_run hanswers 20
    (start_orderly ⟨.empty, 4, ⟨"t", 1, 1⟩⟩ {} .never (.inline ⟨"t", 1, 1⟩ (.nil ⟨"t", 1, 1⟩)))
    (by rw [hreported]; nofun)
  exact ⟨x, hreach, by rw [hx, hreported], reports_exactly_once hreach⟩

end Task

end StagedScript
