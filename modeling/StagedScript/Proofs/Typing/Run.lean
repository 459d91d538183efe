import StagedScript.Proofs.Machine.Run
import StagedScript.Proofs.Typing.Step

/-!
# Runs of typed functions

A call of a typed function keeps to the points of the function from its start to its end, whatever
the other calls of a run do.  So typed functions are safe also when they are called from, or call,
functions of which nothing is known.
-/

namespace StagedScript

namespace Frame

variable {f : Frame} {h h' : Heap} {its : List Nat}

section

variable (points : Int → Option (Point Int)) (w : Watch Int)

/-- A call is at the point of its address. -/
def RunsAt (f : Frame) (h : Heap) (its : List Nat) : Prop :=
  ∃ p vs, points f.ip = some p ∧ f.Stands points h p.layout p.watch vs ∧
    its = p.layout.iterators vs

/-- An error in a call finds the stack that the active handler expects. -/
def RaisesAt (f : Frame) (h : Heap) (its : List Nat) : Prop :=
  ∃ l vs, w.Catches points l ∧ f.Stands points h l w vs ∧ its = l.iterators vs

/-- The instruction before the address of a call has called something. -/
def HasCalled (f : Frame) : Prop :=
  ∃ code i p, f.fn.code = some code ∧ code.at? (f.ip - 1) = some i ∧ i.op.raises = true ∧
    points (f.ip - 1) = some p ∧ p.watch = w

/-- A call goes on at the point of its address when it gets a value. -/
def WaitsAt (f : Frame) (h : Heap) (its : List Nat) : Prop :=
  f.HasCalled points w ∧ ∃ l vs q, w.Catches points l ∧ f.Stands points h l w vs ∧
    its = l.iterators vs ∧ points f.ip = some q ∧ Point.Enters ⟨.value :: l, w⟩ q

end

/-- A call of a typed function is at the point of its address. -/
def Running (f : Frame) (h : Heap) (its : List Nat) : Prop :=
  ∃ code points, f.fn.code = some code ∧ f.fn.Typing code points ∧ f.RunsAt points h its

/-- An error in a call of a typed function finds the stack that its handler expects. -/
def Raising (f : Frame) (h : Heap) (its : List Nat) : Prop :=
  ∃ code points w, f.fn.code = some code ∧ f.fn.Typing code points ∧ f.RaisesAt points w h its

/-- A call of a typed function goes on at the point of its address when it gets a value. -/
def Waiting (f : Frame) (h : Heap) (its : List Nat) : Prop :=
  ∃ code points w, f.fn.code = some code ∧ f.fn.Typing code points ∧ f.WaitsAt points w h its

variable {points : Int → Option (Point Int)} {w : Watch Int}

theorem WaitsAt.raisesAt (hw : f.WaitsAt points w h its) : f.RaisesAt points w h its := by
  obtain ⟨-, l, vs, q, hcatch, hst, hits, -⟩ := hw
  exact ⟨l, vs, hcatch, hst, hits⟩

theorem WaitsAt.mono (hg : h.Grows h') (hw : f.WaitsAt points w h its) :
    f.WaitsAt points w h' its := by
  obtain ⟨hcalled, l, vs, q, hcatch, hst, hits, hq⟩ := hw
  exact ⟨hcalled, l, vs, q, hcatch, ⟨hst.stack, hst.fits.mono hg, hst.handler⟩, hits, hq⟩

theorem Waiting.raising (hw : f.Waiting h its) : f.Raising h its := by
  obtain ⟨code, points, w, hcode, ht, hw⟩ := hw
  exact ⟨code, points, w, hcode, ht, hw.raisesAt⟩

theorem Waiting.mono (hg : h.Grows h') (hw : f.Waiting h its) : f.Waiting h' its := by
  obtain ⟨code, points, w, hcode, ht, hw⟩ := hw
  exact ⟨code, points, w, hcode, ht, hw.mono hg⟩

theorem HasCaptured.mono {n : Nat} (hg : h.Grows h') (hc : f.HasCaptured h n) :
    f.HasCaptured h' n := by
  rcases hc with rfl | ⟨env, henv, hcount⟩
  · exact .inl rfl
  · exact .inr ⟨env, henv, hg.captured env n hcount⟩

theorem Stands.enter {l : Layout} {vs : List Value} {q : Point Int}
    (hst : f.Stands points h l w vs)
    (henter : Point.Enters ⟨l, w⟩ q) : f.Stands points h q.layout q.watch vs := by
  obtain ⟨hlayout, hwatch⟩ := henter
  refine ⟨hst.stack, hlayout ▸ hst.fits, ?_⟩
  rcases hwatch with hw | hw
  · rw [hw]
    trivial
  · rw [hw]
    exact hst.handler

theorem WaitsAt.deliver (hw : f.WaitsAt points w h its) (v : Value) :
    (f.push v).RunsAt points h its := by
  obtain ⟨-, l, vs, q, -, hst, rfl, hq, henter⟩ := hw
  refine ⟨q, v :: vs, hq, (hst.push hst.fits v).enter henter, ?_⟩
  rw [henter.1]
  simp

theorem Waiting.deliver (hw : f.Waiting h its) (v : Value) : (f.push v).Running h its := by
  obtain ⟨code, points, w, hcode, ht, hw⟩ := hw
  exact ⟨code, points, hcode, ht, hw.deliver v⟩

/-- An error goes to the active handler, which finds its part of the stack and the error. -/
theorem RaisesAt.handle (hr : f.RaisesAt points w h its) (hactive : f.handler ≠ noTarget)
    (e : Value) :
    ∃ s its', f.stack.cut? f.handlerDepth = some s ∧ its'.Sublist its ∧
      RunsAt points { f with stack := s.push e, ip := f.handler, handler := noTarget } h its' := by
  obtain ⟨l, vs, hcatch, hst, rfl⟩ := hr
  cases w with
  | unknown => exact absurd hcatch id
  | off => exact absurd hst.handler hactive
  | «at» a =>
    obtain ⟨base, ⟨q, hq, henter⟩, top, rfl⟩ := hcatch
    obtain ⟨ha, base', ⟨q', hq', henter'⟩, hdepth⟩ := hst.handler
    cases Option.some.inj (hq.symm.trans hq')
    obtain rfl : base = base' := (List.cons.inj (henter.1.symm.trans henter'.1)).2
    obtain ⟨ws, us, hws, hus, rfl⟩ := Layout.fits_append.1 hst.fits
    obtain ⟨s, hs, hholds, -⟩ := hst.stack.cut?
    have hstands : Stands points h (.value :: base) .off (e :: us)
        { f with stack := s.push e, ip := f.handler, handler := noTarget } :=
      ⟨hholds.push e, Layout.fits_cons.2 ⟨e, us, trivial, hus, rfl⟩, rfl⟩
    refine ⟨s, Layout.iterators base us, ?_, ?_, q, e :: us, ha ▸ hq, hstands.enter henter,
      by simp [henter.1]⟩
    · rw [hdepth, ← hus.length, hs]
    · rw [Layout.iterators_append hws.length]
      exact List.sublist_append_right _ _

theorem Raising.handle (hr : f.Raising h its) (hactive : f.handler ≠ noTarget) (e : Value) :
    ∃ s its', f.stack.cut? f.handlerDepth = some s ∧ its'.Sublist its ∧
      Running { f with stack := s.push e, ip := f.handler, handler := noTarget } h its' := by
  obtain ⟨code, points, w, hcode, ht, hr⟩ := hr
  obtain ⟨s, its', hs, hsub, hrun⟩ := hr.handle hactive e
  exact ⟨s, its', hs, hsub, code, points, hcode, ht, hrun⟩

end Frame

/-- What a step of an instruction leaves of a call that was watched, with the iterators of the call
after it.  Only some instructions can raise an error, in their own call or in one that they make. -/
def Step.SustainsAt (points : Int → Option (Point Int)) (i : Inst) (w : Watch Int) (st : Step)
    (its : List Nat) : Prop :=
  match st with
  | .next f h => f.RunsAt points h its
  | .return .. => its = []
  | .raise _ f h => i.op.raises = true ∧ f.RaisesAt points w h its
  | .call _ _ f h => i.op.raises = true ∧ f.WaitsAt points w h its

/-- What a step leaves of a typed call, with the iterators of the call after it. -/
def Step.Sustains (st : Step) (its : List Nat) : Prop :=
  match st with
  | .next f h => f.Running h its
  | .return .. => its = []
  | .raise _ f h => f.Raising h its
  | .call _ _ f h => f.Waiting h its

theorem Inst.Flows.known {i : Inst} {c : Nat} {l : Layout} {flow : Flow} (hflow : i.Flows c l flow)
    (code : UInt8) : i.op ≠ .unknown code := by
  intro hop
  cases hflow with
  | push l op | load l op | element l op | jump l op | test l op | connective l op
  | through n l op | collect n l op =>
    rcases op with op | op <;> simp [op] at hop
  | store l op => rcases op with op | op | op | op | op <;> simp [op] at hop
  | _ => simp_all

theorem Inst.Flows.raises_of_raised {i : Inst} {c : Nat} {l l' : Layout} {flow : Flow}
    (hflow : i.Flows c l flow) (hraised : flow.raised = some l') : i.op.raises = true := by
  rw [← hflow.raised_isSome, hraised]
  rfl

theorem Inst.Flows.ne_install {i : Inst} {c : Nat} {l l' : Layout} {flow : Flow}
    (hflow : i.Flows c l flow) (hraised : flow.raised = some l') : i.op ≠ .install := by
  intro hop
  cases hflow <;> simp_all

namespace Frame

variable {f : Frame} {h h' : Heap} {its : List Nat}

/-- The next instruction of a typed call is inside the code.  It has a meaning unless the call lacks
captured values, or asks for the element of an iterator that has none. -/
theorem RunsAt.step {code : Code} (hcode : f.fn.code = some code) (ht : f.fn.Typing code points)
    (hrun : f.RunsAt points h its) :
    ∃ i p, code.at? f.ip = some i ∧ points f.ip = some p ∧ (∀ c, i.op ≠ .unknown c) ∧
      ((f.step h = none ∧ (i.Exhausted f h its ∨ ¬ f.HasCaptured h f.fn.upvalues.length)) ∨
        ∃ st its', f.step h = some st ∧ st.SustainsAt points i p.watch its' ∧
          Moves h st.heap its its') := by
  obtain ⟨p, vs, hp, hst, rfl⟩ := hrun
  obtain ⟨i, hi, flow, hflow, hleads⟩ := ht.typed _ p hp
  have haddr := ht.addresses _ p hp
  have hheight := ht.heights _ p hp
  have hroom := ht.room
  unfold Func.addressLimit at haddr
  have hwrap : wrapInt (f.ip + 1) = f.ip + 1 := wrapInt_of_small (by omega) (by omega)
  have hl : (p.layout.length : Int) < Func.addressLimit := by
    unfold Frame.roomLimit at hroom
    unfold Func.addressLimit
    omega
  have hstep : f.step h = execute i { f with ip := f.ip + 1 } h := by
    simp [Frame.step, hcode, hi, hwrap]
  have hst' : Stands points h p.layout p.watch vs { f with ip := f.ip + 1 } :=
    ⟨hst.stack, hst.fits, hst.handler⟩
  refine ⟨i, p, hi, hp, hflow.known, ?_⟩
  rw [hstep]
  rcases hflow.execute hst' hl hleads.installs with ⟨hnone, hwhy⟩ | ⟨st, its', hsome, htakes, hmoves⟩
  · exact .inl ⟨hnone, hwhy⟩
  · refine .inr ⟨st, its', hsome, ?_, hmoves⟩
    cases htakes with
    | @falls l vs' f' h' way same ip stands =>
      obtain ⟨q, hq, henter⟩ := hleads.falls l way
      refine ⟨q, vs', ?_, stands.enter henter, ?_⟩
      · rw [ip]
        exact hq
      · rw [henter.1]
    | @jumps l vs' f' h' way same ip stands =>
      obtain ⟨q, hq, henter⟩ := hleads.jumps l way _ ip
      refine ⟨q, vs', hq, stands.enter henter, ?_⟩
      rw [henter.1]
    | @raises l vs' f' h' e way same stands =>
      exact ⟨hflow.raises_of_raised way, l, vs', hleads.raises l way, stands, rfl⟩
    | @calls l vs' f' h' fn args fall raised same ip stands =>
      obtain ⟨q, hq, henter⟩ := hleads.falls _ fall
      -- a call installs no handler
      have hop : i.watchAfter i.targets p.watch = p.watch := by
        unfold Inst.watchAfter
        rw [if_neg (hflow.ne_install raised)]
      rw [hop] at henter
      have hcalled : f'.HasCalled points p.watch := by
        have hip : f'.ip - 1 = f.ip := by
          rw [ip]
          exact Int.add_sub_cancel _ _
        exact ⟨code, i, p, same.1 ▸ hcode, hip ▸ hi, hflow.raises_of_raised raised, hip ▸ hp, rfl⟩
      refine ⟨hflow.raises_of_raised raised, hcalled, l, vs', q, hleads.raises l raised, stands, rfl,
        ?_, henter⟩
      rw [ip]
      exact hq
    | returns => rfl

theorem Running.step (hrun : f.Running h its) :
    ∃ code i, f.fn.code = some code ∧ code.at? f.ip = some i ∧ (∀ c, i.op ≠ .unknown c) ∧
      ((f.step h = none ∧ (i.Exhausted f h its ∨ ¬ f.HasCaptured h f.fn.upvalues.length)) ∨
        ∃ st its', f.step h = some st ∧ st.Sustains its' ∧ Moves h st.heap its its') := by
  obtain ⟨code, points, hcode, ht, hrun⟩ := hrun
  obtain ⟨i, p, hi, -, hknown, hnone | ⟨st, its', hst, hsustains, hmoves⟩⟩ := hrun.step hcode ht
  · exact ⟨code, i, hcode, hi, hknown, .inl hnone⟩
  · refine ⟨code, i, hcode, hi, hknown, .inr ⟨st, its', hst, ?_, hmoves⟩⟩
    have hfn := (step_keeps f h st hst).fn
    cases st with
    | next f' h' => exact ⟨code, points, hfn f' rfl ▸ hcode, hfn f' rfl ▸ ht, hsustains⟩
    | «return» v h' => exact hsustains
    | raise e f' h' =>
      exact ⟨code, points, _, hfn f' rfl ▸ hcode, hfn f' rfl ▸ ht, hsustains.2⟩
    | call fn args f' h' =>
      exact ⟨code, points, _, hfn f' rfl ▸ hcode, hfn f' rfl ▸ ht, hsustains.2⟩

theorem bindParameters_length (fn : Func) (count : Nat) (args : List Value) :
    (bindParameters fn count args).length = count := by
  unfold bindParameters
  split
  next h =>
    simp only [Bool.and_eq_true, decide_eq_true_eq] at h
    simp
    omega
  next => simp; omega

/-- A call of a typed function has a frame, and starts at the entry with its parameters. -/
theorem exists_start?_runsAt {fn : Func} {code : Code} (ht : fn.Typing code points)
    (env : Option Nat) (args : List Value) (h : Heap) :
    ∃ f, start? fn env args = some f ∧ f.fn = fn ∧ f.env = env ∧ f.RunsAt points h [] := by
  obtain ⟨q, hq, henter⟩ := ht.entry
  have hparams : (fn.params.length : Int) ≤ fn.frameSize := by
    simpa [henter.1] using ht.heights _ q hq
  have hroom := ht.room
  have hnum := ht.params
  unfold roomLimit at hroom
  have hwrap : wrapInt (fn.frameSize + 1) = fn.frameSize + 1 :=
    wrapInt_of_small (by omega) (by omega)
  let values := bindParameters fn fn.params.length args
  have hlen : values.length = fn.params.length := bindParameters_length ..
  refine ⟨⟨fn, env, ⟨values.toArray, values.length, (fn.frameSize + 1).toNat⟩, fn.entry, noTarget,
    0⟩, ?_, rfl, rfl, ?_⟩
  · unfold start?
    rw [hwrap, hnum]
    simp only [Int.toNat_natCast]
    rw [if_neg]
    unfold roomLimit
    simp
    omega
  · have hfit : Layout.Fits h (Layout.values fn.params.length) values.reverse :=
      (Layout.fits_values _).2 (by simp [hlen])
    have hst : Stands points h (Layout.values fn.params.length) .off values.reverse
        ⟨fn, env, ⟨values.toArray, values.length, (fn.frameSize + 1).toNat⟩, fn.entry, noTarget,
          0⟩ := by
      refine ⟨⟨fun i _ => by simp, by simp, ?_⟩, hfit, rfl⟩
      show values.length ≤ (fn.frameSize + 1).toNat
      omega
    refine ⟨q, values.reverse, hq, hst.enter henter, ?_⟩
    rw [henter.1]
    exact (Layout.iterators_values (by simp [hlen])).symm

theorem exists_start? {fn : Func} (ht : fn.IsTyped) (env : Option Nat) (args : List Value)
    (h : Heap) :
    ∃ f, start? fn env args = some f ∧ f.fn = fn ∧ f.env = env ∧ f.Running h [] := by
  obtain ⟨code, points, hcode, ht⟩ := ht
  obtain ⟨f, hf, rfl, henv, hrun⟩ := exists_start?_runsAt ht env args h
  exact ⟨f, hf, rfl, henv, code, points, hcode, ht, hrun⟩

theorem start?_runsAt {fn : Func} {env : Option Nat} {args : List Value}
    (hframe : start? fn env args = some f) (h : Heap) {code : Code}
    (ht : f.fn.Typing code points) : ∃ its, f.RunsAt points h its := by
  have hfn : f.fn = fn := by
    unfold start? at hframe
    dsimp only at hframe
    split at hframe
    · exact absurd hframe (by simp)
    · cases Option.some.inj hframe
      rfl
  obtain ⟨f', hframe', -, -, hrun⟩ := exists_start?_runsAt (hfn ▸ ht) env args h
  cases Option.some.inj (hframe.symm.trans hframe')
  exact ⟨[], hrun⟩

end Frame

namespace Machine

open StagedScript.Frame

variable {f : Frame} {rest frames : List Frame} {h h' : Heap}

/-- A call is in a state that fits each typing of its function. -/
def TypedCall (P : (Int → Option (Point Int)) → Frame → Prop) (f : Frame) : Prop :=
  ∀ code points, f.fn.code = some code → f.fn.Typing code points → P points f

/-- The calls of typed functions among some calls wait for a value. -/
def TypedWaiting (rest : List Frame) (h : Heap) : Prop :=
  ∀ g ∈ rest, TypedCall (fun points g => ∃ w its, g.WaitsAt points w h its) g

/-- In a run of any functions, the calls of typed functions are at their points. -/
def TypedCalls : List Frame → Heap → Prop
  | [], _ => True
  | f :: rest, h =>
    TypedCall (fun points f => ∃ its, f.RunsAt points h its) f ∧ TypedWaiting rest h

theorem TypedWaiting.mono (hg : h.Grows h') (hrest : TypedWaiting rest h) :
    TypedWaiting rest h' := by
  intro g hmem code points hcode ht
  obtain ⟨w, its, hw⟩ := hrest g hmem code points hcode ht
  exact ⟨w, its, hw.mono hg⟩

theorem TypedWaiting.deliver {v : Value} (hrest : TypedWaiting rest h)
    (hok : Machine.deliver v rest = .ok frames) : TypedCalls frames h := by
  cases rest with
  | nil => exact absurd hok (by simp [Machine.deliver])
  | cons g rest =>
    cases Except.ok.inj hok
    refine ⟨fun code points hcode ht => ?_, fun g' hmem => hrest g' (by simp [hmem])⟩
    obtain ⟨w, its, hw⟩ := hrest g (by simp) code points hcode ht
    exact ⟨its, hw.deliver v⟩

/-- An error goes to a handler of a typed call at its point. -/
theorem TypedWaiting.unwind {e : Raised} (hrest : TypedWaiting rest h)
    (hf : TypedCall (fun points f => ∃ w its, f.RaisesAt points w h its) f)
    (hok : Machine.unwind e (f :: rest) = .ok frames) : TypedCalls frames h := by
  induction rest generalizing f with
  | nil =>
    by_cases hactive : f.handler = noTarget
    · simp [Machine.unwind, hactive] at hok
    · exact handled hrest hf hactive hok
  | cons g rest ih =>
    by_cases hactive : f.handler = noTarget
    · rw [Machine.unwind, if_pos hactive] at hok
      refine ih (fun g' hmem => hrest g' (by simp [hmem])) (fun code points hcode ht => ?_) hok
      obtain ⟨w, its, hw⟩ := hrest g (by simp) code points hcode ht
      exact ⟨w, its, hw.raisesAt⟩
    · exact handled hrest hf hactive hok
where
  /-- The handler of the innermost call takes the error. -/
  handled {f : Frame} {rest : List Frame} (hrest : TypedWaiting rest h)
      (hf : TypedCall (fun points f => ∃ w its, f.RaisesAt points w h its) f)
      (hactive : f.handler ≠ noTarget)
      (hok : Machine.unwind e (f :: rest) = .ok frames) : TypedCalls frames h := by
    rw [Machine.unwind, if_neg hactive] at hok
    split at hok
    · exact absurd hok (by simp)
    next s hs =>
      cases Except.ok.inj hok
      refine ⟨fun code points hcode ht => ?_, hrest⟩
      obtain ⟨w, its, hr⟩ := hf code points hcode ht
      obtain ⟨s', its', hs', -, hrun⟩ := hr.handle hactive (.error e.type e.message)
      cases Option.some.inj (hs.symm.trans hs')
      exact ⟨its', hrun⟩

theorem TypedWaiting.enter {fn : Value} {args : List Value} (hrest : TypedWaiting rest h)
    (hf : TypedCall (fun points f => ∃ w its, f.WaitsAt points w h its) f)
    (hok : Machine.enter h fn args (f :: rest) = .ok frames) : TypedCalls frames h := by
  have hall : TypedWaiting (f :: rest) h := by
    intro g hmem
    rcases List.mem_cons.1 hmem with rfl | hmem
    · exact hf
    · exact hrest g hmem
  have hraise : TypedCall (fun points f => ∃ w its, f.RaisesAt points w h its) f := by
    intro code points hcode ht
    obtain ⟨w, its, hw⟩ := hf code points hcode ht
    exact ⟨w, its, hw.raisesAt⟩
  unfold Machine.enter at hok
  split at hok
  · exact absurd hok (by simp)
  · exact hall.deliver hok
  · exact hrest.unwind hraise hok
  next g env args' _ =>
    split at hok
    · exact hrest.unwind hraise hok
    · split at hok
      · exact absurd hok (by simp)
      next frame hframe =>
        cases Except.ok.inj hok
        exact ⟨fun _ _ _ ht => start?_runsAt hframe h ht, hall⟩

/-- A call from outside starts a run with typed calls at their points. -/
theorem typedCalls_of_enter {fn : Value} {args : List Value}
    (hok : Machine.enter h fn args [] = .ok frames) : TypedCalls frames h := by
  unfold Machine.enter at hok
  split at hok
  · exact absurd hok (by simp)
  · exact absurd hok (by simp [Machine.deliver])
  · exact absurd hok (by simp [Machine.unwind])
  · split at hok
    · exact absurd hok (by simp [Machine.unwind])
    · split at hok
      · exact absurd hok (by simp)
      next frame hframe =>
        cases Except.ok.inj hok
        exact ⟨fun _ _ _ ht => start?_runsAt hframe h ht, List.forall_mem_nil _⟩

/-- One instruction of a run keeps typed calls at their points. -/
theorem TypedCalls.step (hcalls : TypedCalls (f :: rest) h)
    (hok : afterStep (f.step h) rest = (.ok frames, h')) : TypedCalls frames h' := by
  obtain ⟨hf, hrest⟩ := hcalls
  cases hst : f.step h with
  | none => simp [hst, afterStep] at hok
  | some st =>
    have hkeeps := step_keeps f h st hst
    -- the step is as every typing of the function says
    have hsustains : ∀ code points, f.fn.code = some code → f.fn.Typing code points →
        ∃ i w its, st.SustainsAt points i w its := by
      intro code points hcode ht
      obtain ⟨its, hrun⟩ := hf code points hcode ht
      obtain ⟨i, p, -, -, -, hnone | ⟨st', its', hst', hs, -⟩⟩ := hrun.step hcode ht
      · simp [hst] at hnone
      · cases Option.some.inj (hst.symm.trans hst')
        exact ⟨i, p.watch, its', hs⟩
    have hrest' := hrest.mono hkeeps.grows
    rw [hst] at hok
    cases st with
    | next f' h₁ =>
      simp only [afterStep, Prod.mk.injEq, Except.ok.injEq] at hok
      obtain ⟨rfl, rfl⟩ := hok
      refine ⟨fun code points hcode ht => ?_, hrest'⟩
      rw [hkeeps.fn f' rfl] at hcode ht
      obtain ⟨_, _, its, hs⟩ := hsustains code points hcode ht
      exact ⟨its, hs⟩
    | «return» v h₁ =>
      simp only [afterStep, Prod.mk.injEq] at hok
      obtain ⟨hok, rfl⟩ := hok
      exact hrest'.deliver hok
    | raise e f' h₁ =>
      simp only [afterStep, Prod.mk.injEq] at hok
      obtain ⟨hok, rfl⟩ := hok
      refine hrest'.unwind (fun code points hcode ht => ?_) hok
      rw [hkeeps.fn f' rfl] at hcode ht
      obtain ⟨_, w, its, hs⟩ := hsustains code points hcode ht
      exact ⟨w, its, hs.2⟩
    | call fn args f' h₁ =>
      simp only [afterStep, Prod.mk.injEq] at hok
      obtain ⟨hok, rfl⟩ := hok
      refine hrest'.enter (fun code points hcode ht => ?_) hok
      rw [hkeeps.fn f' rfl] at hcode ht
      obtain ⟨_, w, its, hs⟩ := hsustains code points hcode ht
      exact ⟨w, its, hs.2⟩

/-- Typed calls are at their points in every state of a run, whatever other functions do. -/
theorem TypedCalls.reaches {frames' : List Frame} (hreach : Reaches (frames, h) (frames', h'))
    (hcalls : TypedCalls frames h) : TypedCalls frames' h' :=
  hreach.invariant (fun _ _ _ _ _ => TypedCalls.step) hcalls

end Machine

end StagedScript
