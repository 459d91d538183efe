import StagedScript.Proofs.Compile.Verified

/-!
# Errors go to the handlers around them

When an instruction of a compiled function raises an error, or a call that it makes does, then the
error goes to the handler of the innermost block that has the expression of the instruction in its
statements.  If there is no such block the error leaves the call.  The function may call, and be
called from, functions of which nothing is known.
-/

namespace StagedScript

namespace Machine

variable {h : Heap} {frames below : List Frame} {e : Raised} {a : Int} {f : Frame}

/-- An instruction has raised an error in a call, which finds the stack that its handler expects. -/
def RaisedBy (a : Int) (points : Int → Option (Point Int)) (f : Frame) : Prop :=
  ∃ code i p h its, f.fn.code = some code ∧ code.at? a = some i ∧ i.op.raises = true ∧
    points a = some p ∧ f.RaisesAt points p.watch h its

/-- An error that arrives at a call of a typed function has been raised by an instruction that can
do so. -/
theorem Arrives.raisedBy (hcalls : TypedCalls frames h) (harrives : Arrives h frames e a f below) :
    TypedCall (RaisedBy a) f ∧ ∃ h', TypedWaiting below h' := by
  -- what the instruction of the innermost call leaves of it
  have hinner : ∀ {f f' : Frame} {rest : List Frame} {st : Step}, frames = f :: rest →
      f.step h = some st → f'.fn = f.fn → ∀ code points, f'.fn.code = some code →
      f'.fn.Typing code points → ∃ i p its, f'.fn.code = some code ∧ code.at? f.ip = some i ∧
        points f.ip = some p ∧ st.SustainsAt points i p.watch its := by
    rintro f f' rest st rfl hstep hfn code points hcode ht
    rw [hfn] at hcode ht
    obtain ⟨its, hrun⟩ := hcalls.1 code points hcode ht
    obtain ⟨i, p, hi, hp, -, hnone | ⟨st', its', hst', hsustains, -⟩⟩ := hrun.step hcode ht
    · simp [hstep] at hnone
    · cases Option.some.inj (hstep.symm.trans hst')
      exact ⟨i, p, its', hfn ▸ hcode, hi, hp, hsustains⟩
  induction harrives with
  | @raised f f' rest h' hstate hstep =>
    have hkeeps := Frame.step_keeps f h _ hstep
    refine ⟨fun code points hcode ht => ?_, h', ?_⟩
    · obtain ⟨i, p, its, hcode, hi, hp, hraises, hat⟩ :=
        hinner hstate hstep (hkeeps.fn f' rfl) code points hcode ht
      exact ⟨code, i, p, h', its, hcode, hi, hraises, hp, hat⟩
    · subst hstate
      exact hcalls.2.mono hkeeps.grows
  | @refused f f' rest h' v args hstate hstep hrefuses =>
    have hkeeps := Frame.step_keeps f h _ hstep
    refine ⟨fun code points hcode ht => ?_, h', ?_⟩
    · obtain ⟨i, p, its, hcode, hi, hp, hraises, hat⟩ :=
        hinner hstate hstep (hkeeps.fn f' rfl) code points hcode ht
      exact ⟨code, i, p, h', its, hcode, hi, hraises, hp, hat.raisesAt⟩
    · subst hstate
      exact hcalls.2.mono hkeeps.grows
  | @left a f g below _ _ ih =>
    obtain ⟨-, h', hwaiting⟩ := ih
    refine ⟨fun code points hcode ht => ?_, h', fun g hg => hwaiting g (List.mem_cons_of_mem _ hg)⟩
    obtain ⟨w, its, hwaits⟩ := hwaiting f List.mem_cons_self code points hcode ht
    have hraises := hwaits.raisesAt
    obtain ⟨⟨code', i, p, hcode', hi, hop, hp, rfl⟩, -⟩ := hwaits
    exact ⟨code', i, p, h', its, hcode', hi, hop, hp, hraises⟩

/-- In every run, whenever a call of a function comes to an address, its stack has a height. -/
def HasHeightAt (fn : Func) (address height : Int) : Prop :=
  ∀ h v args start frames h', enter h v args [] = .ok start → Reaches (start, h) (frames, h') →
    ∀ f rest, frames = f :: rest → f.fn = fn → f.ip = address → (f.stack.depth : Int) = height

end Machine

namespace Func

def EmittedFor (fn : Func) (r : Record) (address : Int) (o : Origin) : Prop :=
  ∃ code k, fn.code = some code ∧ address = Builder.addressOf code.blockSize.toNat k ∧
    r.origins[k]? = some o

/-- A block is entered at a height of the stack, and its first instruction installs its handler,
which begins behind the jump with which its statements end. -/
structure Protects (fn : Func) (r : Record) (c : Construct) (handler depth : Int) : Prop where
  enters : ∃ code i o, fn.code = some code ∧
    code.at? (Builder.addressOf code.blockSize.toNat c.start) = some i ∧ i.op = .install ∧
    i.targets = [handler] ∧ i.count = depth ∧ r.origins[c.start]? = some o ∧ o.expr = c.expr ∧
    Machine.HasHeightAt fn (Builder.addressOf code.blockSize.toNat c.start) depth
  ends : ∃ code i k o, fn.code = some code ∧
    code.at? (Builder.addressOf code.blockSize.toNat k) = some i ∧ i.op = .jump ∧
    r.origins[k]? = some o ∧ o.EndsStatements c.expr c.start ∧
    handler = Builder.placeOf code.blockSize.toNat (k + 1)

/-- Where an error goes that arrives at a call: to the handler of the innermost block that has the
expression in its statements, with the stack cut to the height on entry of the block, or out of the
call. -/
def Sends (fn : Func) (r : Record) (o : Origin) (e : Raised) (f : Frame) (below : List Frame)
    (result : Except Outcome (List Frame)) : Prop :=
  match o.handledBy? with
  | none => result = Machine.unwind e below
  | some c => ∃ handler depth stack, fn.Protects r c handler depth ∧ depth ≤ f.stack.depth ∧
      f.stack.cut? depth = some stack ∧
      result = .ok ({ f with
        stack := stack.push (.error e.type e.message), ip := handler, handler := noTarget } :: below)

end Func

theorem Layout.HandledAt.unique {points : Int → Option (Point Int)} {base base' : Layout} {a : Int}
    (h : base.HandledAt points a) (h' : base'.HandledAt points a) : base = base' := by
  obtain ⟨q, hq, henter⟩ := h
  obtain ⟨q', hq', henter'⟩ := h'
  cases Option.some.inj (hq.symm.trans hq')
  exact (List.cons.inj (henter.1.symm.trans henter'.1)).2

theorem InstallsAt.handler_unique {marks : List Mark} {block : Expr} {start : Nat}
    {p p' : Protected} (h : InstallsAt marks block start p) (h' : InstallsAt marks block start p') :
    p.handler = p'.handler := by
  obtain ⟨m, hm, -, -, htargets, -⟩ := h
  obtain ⟨m', hm', -, -, htargets', -⟩ := h'
  cases Option.some.inj (hm.symm.trans hm')
  exact (List.cons.inj (htargets.symm.trans htargets')).1

namespace Func

variable {fn : Func} {r : Record}

theorem Typing.hasHeightAt {code : Code} {points : Int → Option (Point Int)} {a n : Int}
    (hcode : fn.code = some code) (ht : fn.Typing code points)
    (hn : ∀ p, points a = some p → (p.layout.length : Int) = n) : Machine.HasHeightAt fn a n := by
  rintro h v args start _ h' henter hreach f rest rfl rfl rfl
  have hcalls := (Machine.typedCalls_of_enter henter).reaches hreach
  obtain ⟨its, p, vs, hp, hstands, -⟩ := hcalls.1 code points hcode ht
  rw [hstands.stack.depth, hstands.fits.length]
  exact hn p hp

section

variable {marks : List Mark} {bound : List (Label × Nat)} {finished : List Func}

theorem origin_of_mark (horigins : r.origins = marks.map (·.origin)) {k : Nat} {m : Mark}
    (hm : marks[k]? = some m) : r.origins[k]? = some m.origin := by
  rw [horigins, List.getElem?_map, hm]
  rfl

variable {code : Code} {points : Int → Option (Point Int)} {target : Label → Int}
  (hlaid : fn.LaidOut marks bound code points target) (horigins : r.origins = marks.map (·.origin))

include hlaid horigins

/-- A block whose statements have ended protects them, and its handler expects the stack as it was on
entry. -/
theorem LaidOut.protects {c : Construct} {p : Protected}
    (hinstalls : InstallsAt marks c.expr c.start p) (hended : EndedAt marks bound c.expr c.start) :
    fn.Protects r c (target p.handler) p.depth ∧
      ∃ base : Layout, base.HandledAt points (target p.handler) ∧ (base.length : Int) = p.depth := by
  obtain ⟨p', k, m', hinstalls', hm', hjump, hends, hplace⟩ := hended
  have hsame : p'.handler = p.handler := hinstalls'.handler_unique hinstalls
  obtain ⟨m, hm, hop, hcount, htargets, hheight, hexpr⟩ := hinstalls
  obtain ⟨i, hi, hiop, hicount, hitargets, hpoint, hinstall⟩ := hlaid.inst _ m hm
  obtain ⟨j, hj, hjop, -⟩ := hlaid.inst k m' hm'
  obtain ⟨base, hbase, hlength⟩ := hinstall hop p.handler (by simp [htargets])
  refine ⟨⟨?_, ?_⟩, base, hbase, hlength.trans hcount⟩
  · refine ⟨code, i, m.origin, hlaid.code_eq, hi, hiop.trans hop, ?_, hicount.trans hcount,
      origin_of_mark horigins hm, hexpr, hlaid.typing.hasHeightAt hlaid.code_eq fun q hq => ?_⟩
    · rw [hitargets, htargets]
      rfl
    · rw [hpoint q hq]
      exact hheight
  · refine ⟨code, j, k, m'.origin, hlaid.code_eq, hj, hjop.trans hjump, origin_of_mark horigins hm',
      hends, ?_⟩
    rw [← hsame]
    exact hlaid.place _ hplace

/-- An error that has been raised while the right handler is active goes there. -/
theorem LaidOut.sends {o : Origin} {w : Watch Label} (hhandles : Handles marks o w)
    (hended : ∀ c ∈ o.around, c.isTried = true → EndedAt marks bound c.expr c.start) {f : Frame}
    {h : Heap} {its : List Nat} (hraises : f.RaisesAt points (w.map target) h its) (e : Raised)
    (below : List Frame) : fn.Sends r o e f below (Machine.unwind e (f :: below)) := by
  unfold Sends
  cases hhandles with
  | off hnone =>
    obtain ⟨l, vs, -, hstands, -⟩ := hraises
    have hinactive : f.handler = noTarget := hstands.handler
    rw [hnone, Machine.unwind, if_pos hinactive]
  | @«at» c p hc hinstalls =>
    rw [hc]
    obtain ⟨hprotects, base, hbase, hlength⟩ := hlaid.protects horigins hinstalls
      (hended c (List.mem_of_find?_eq_some hc) (List.find?_some hc))
    obtain ⟨l, vs, ⟨base₁, hbase₁, hsuffix⟩, hstands, -⟩ := id hraises
    obtain ⟨hhandler, base₂, hbase₂, hdepth⟩ := hstands.handler
    obtain rfl := hbase.unique hbase₁
    obtain rfl := hbase.unique hbase₂
    have hactive : f.handler ≠ noTarget := by
      obtain ⟨q, hq, -⟩ := hbase
      have := (hlaid.typing.addresses _ q hq).1
      rw [hhandler]
      unfold noTarget
      omega
    obtain ⟨stack, -, hcut, -⟩ := hraises.handle hactive (.error e.type e.message)
    rw [hdepth, hlength] at hcut
    refine ⟨target p.handler, p.depth, stack, hprotects, ?_, hcut, ?_⟩
    · have hle := hsuffix.length_le
      rw [hstands.stack.depth, hstands.fits.length]
      omega
    · rw [Machine.unwind, if_neg hactive, hdepth, hlength, hcut, hhandler]

end

theorem Recorded.sends {finished : List Func} {f : Frame} (hrecorded : f.fn.Recorded r finished)
    {a : Int} (hraised : Machine.TypedCall (Machine.RaisedBy a) f) (e : Raised)
    (below : List Frame) :
    ∃ o, f.fn.EmittedFor r a o ∧ Occurs r.body o.around o.expr ∧
      f.fn.Sends r o e f below (Machine.unwind e (f :: below)) := by
  obtain ⟨marks, bound, horigins, hmarked, hlexical⟩ := hrecorded
  obtain ⟨code, points, target, hlaid⟩ := hmarked.laidOut
  obtain ⟨code', i, p, h, its, hcode, hi, hop, hp, hraises⟩ :=
    hraised code points hlaid.code_eq hlaid.typing
  cases Option.some.inj (hlaid.code_eq.symm.trans hcode)
  obtain ⟨k, m, ha, hm, hmop, rfl⟩ := hlaid.raising a p i hp hi hop
  obtain ⟨hmark, hended⟩ := hlexical m (List.mem_of_getElem? hm)
  exact ⟨m.origin, ⟨code, k, hcode, ha, origin_of_mark horigins hm⟩, hmark.occurs,
    hlaid.sends horigins (hmark.handles hmop) hended hraises e below⟩

end Func

/-- The handlers of compiled functions are lexically right.  Take the function that a text compiles
to, or one in its code, and any run in which it is called.  An error that arrives at a call of it
goes to the handler of the innermost block that has the expression of the instruction in its
statements, or leaves the call. -/
theorem Compiler.errors_go_to_innermost_handler {compiler : Compiler}
    (hglobals : compiler.globals.Sound) (hev : compiler.evaluator.Sound) {heap : Heap}
    (hheap : heap.Sound) (cancellation : Cancellation) (source text : Bytes) :
    (∀ fn, (compiler.compileText heap cancellation source text).outcome = .func fn →
      ∃ r, (fn, r) ∈ compiler.journal heap cancellation source text) ∧
    ∀ fn r, (fn, r) ∈ compiler.journal heap cancellation source text →
      (∀ code, fn.code = some code → ∀ block ∈ code.blocks, ∀ i ∈ block, ∀ g, i.func = some g →
        ∃ r, (g, r) ∈ compiler.journal heap cancellation source text) ∧
      ∀ h v args start frames h', Machine.enter h v args [] = .ok start →
        Machine.Reaches (start, h) (frames, h') →
        ∀ e a f below, Machine.Arrives h' frames e a f below → f.fn = fn →
          ∃ o, fn.EmittedFor r a o ∧ Occurs r.body o.around o.expr ∧
            fn.Sends r o e f below (Machine.next h' frames) := by
  refine ⟨fun fn => exists_mem_journal hglobals hev hheap cancellation source text,
    fun fn r hfn => ?_⟩
  have hrecorded := journal_recorded hglobals hev hheap cancellation source text hfn
  constructor
  · intro code hcode block hblock i hi g hg
    obtain ⟨marks, bound, -, hmarked, -⟩ := hrecorded
    obtain ⟨⟨g, r'⟩, hr', rfl⟩ := List.mem_map.1 (hmarked.nested code hcode block hblock i hi g hg)
    exact ⟨r', hr'⟩
  · rintro h v args start frames h' henter hreach e a f below harrives rfl
    have hcalls := (Machine.typedCalls_of_enter henter).reaches hreach
    rw [harrives.next]
    exact hrecorded.sends (harrives.raisedBy hcalls).1 e below

namespace Machine

/-- Whether, after a number of instructions, the inner one of two calls makes a call that fails, and
the error is handled. -/
def failsAfter : Nat → List Frame → Heap → Bool
  | 0, [f, g], h =>
    match f.step h with
    | some (.call v args f' h') =>
      match callee h' expanderLimit v args with
      | .done (.error _) => f'.handler == noTarget && (next h [f, g]).isOk
      | _ => false
    | _ => false
  | n + 1, f :: rest, h =>
    match afterStep (f.step h) rest with
    | (.ok frames, h') => failsAfter n frames h'
    | _ => false
  | _, _, _ => false

theorem exists_arrives_of_failsAfter {n : Nat} {frames : List Frame} {h : Heap}
    (hfails : failsAfter n frames h = true) :
    ∃ frames' h' e a f, Reaches (frames, h) (frames', h') ∧ Arrives h' frames' e a f [] ∧
      (next h' frames').isOk = true := by
  fun_induction failsAfter n frames h with
  | case1 f g h v args f' h' hstep e hcallee =>
    obtain ⟨hhandler, hok⟩ := Bool.and_eq_true_iff.1 hfails
    exact ⟨[f, g], h, e, _, g, .refl,
      .left (.refused rfl hstep (.failed hcallee)) (by simpa using hhandler), hok⟩
  | case4 n f rest h frames h' hstep ih =>
    obtain ⟨frames', h'', e, a, g, hreach, hrest⟩ := ih hfails
    exact ⟨frames', h'', e, a, g, .head (.step hstep) hreach, hrest⟩
  | _ => cases hfails

end Machine

def Compiled.failsAfter (c : Compiled) (n : Nat) : Bool :=
  match c.outcome with
  | .func fn =>
    match Machine.enter c.heap (.func fn) [] [] with
    | .ok start => Machine.failsAfter n start c.heap
    | .error _ => false
  | _ => false

theorem Compiled.exists_of_failsAfter {c : Compiled} {n : Nat} (hfails : c.failsAfter n = true) :
    ∃ fn start, c.outcome = .func fn ∧ Machine.enter c.heap (.func fn) [] [] = .ok start ∧
      Machine.failsAfter n start c.heap = true := by
  unfold failsAfter at hfails
  split at hfails
  · rename_i fn hfn
    split at hfails
    · rename_i start hstart
      exact ⟨fn, start, hfn, hstart, hfails⟩
    · cases hfails
  · cases hfails

theorem Compiler.errors_go_to_innermost_handler_of_failing_call :
    ∃ fn r frames h e a f o c, (fn, r) ∈ journal ⟨⟨.few, .standard⟩, .prelude, 4, .machine⟩ {} .never
        "t" "let f := fun() 1 + \"a\" end; do f() on e do 5 end" ∧
      Machine.Arrives h frames e a f [] ∧ f.fn = fn ∧ fn.EmittedFor r a o ∧
      o.handledBy? = some c ∧ fn.Sends r o e f [] (Machine.next h frames) := by
  set compiler : Compiler := ⟨⟨.few, .standard⟩, .prelude, 4, .machine⟩
  set compiled := compiler.compileText {} .never "t" "let f := fun() 1 + \"a\" end; do f() on e do 5 end"
    with hcompiled
  obtain ⟨hmem, hsends⟩ := @errors_go_to_innermost_handler compiler
    Globals.prelude_sound Evaluator.machine_sound {} Heap.empty_sound .never "t"
    "let f := fun() 1 + \"a\" end; do f() on e do 5 end"
  have hfails : compiled.failsAfter 11 = true := by
    decide +kernel
  obtain ⟨fn, start, hfn, henter, hfails⟩ := Compiled.exists_of_failsAfter hfails
  obtain ⟨r, hr⟩ := hmem fn hfn
  obtain ⟨frames, h, e, a, f, hreach, harrives, hok⟩ := Machine.exists_arrives_of_failsAfter hfails
  have hf : f.fn = fn := by
    have houter := harrives.outermost?.symm.trans
      (hreach.outermost?.trans (Machine.outermost?_of_enter henter))
    exact Option.some.inj houter
  obtain ⟨o, ho, -, hsent⟩ :=
    (hsends fn r hr).2 compiled.heap (.func fn) [] start frames h henter hreach e a f [] harrives hf
  cases hc : o.handledBy? with
  | none =>
    have hleft : Machine.next h frames = .error (.raised e) := by
      unfold Func.Sends at hsent
      rw [hc] at hsent
      exact hsent
    rw [hleft] at hok
    cases hok
  | some c => exact ⟨fn, r, frames, h, e, a, f, o, c, hr, harrives, hf, ho, hc, hsent⟩

end StagedScript
