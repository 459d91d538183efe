import StagedScript.Proofs.Machine.Run
import StagedScript.Proofs.Machine.Stack
import StagedScript.Proofs.Typing.Flow

/-!
# Declared effects and what instructions do

Every instruction that is executed keeps to `Inst.effect` and `Inst.successors`, whatever the values
on the stack are.  For an instruction that makes a call this is said when control is back in the
call that it belongs to.
-/

namespace StagedScript

namespace Stack

variable {s s' : Stack} {v : Value} {vs : List Value} {n : Int}

theorem depth_of_top? (h : s.top? = some v) : 0 < s.depth := by
  unfold top? at h
  split at h
  · cases h
  · omega

@[grind →]
theorem depth_of_pop? (h : s.pop? = some (v, s')) : s'.depth + 1 = s.depth ∧ s'.room = s.room := by
  obtain ⟨w, hw, heq⟩ := Option.map_eq_some_iff.1 h
  have hpos := depth_of_top? hw
  cases heq
  exact ⟨Nat.sub_add_cancel hpos, rfl⟩

@[grind →]
theorem depth_of_popN? (h : s.popN? n = some (vs, s')) :
    0 ≤ n ∧ (s'.depth : Int) = s.depth - n ∧ s'.room = s.room := by
  unfold popN? at h
  split at h
  · cases h
  · rename_i hn
    simp only [Bool.or_eq_true, decide_eq_true_eq, not_or] at hn
    cases h
    dsimp only
    omega

@[grind →]
theorem depth_of_set? (h : s.set? n v = some s') : s'.depth = s.depth := by
  unfold set? at h
  split at h
  · cases h
  · cases h
    rfl

@[grind →]
theorem depth_of_cut? (h : s.cut? n = some s') :
    (s'.depth : Int) = n ∧ n ≤ s.room := by
  unfold cut? at h
  split at h
  · cases h
  · rename_i hn
    simp only [Bool.or_eq_true, decide_eq_true_eq, not_or] at hn
    cases h
    dsimp only
    omega

@[grind →]
theorem depth_of_drop? (h : s.drop? n = some s') :
    (s'.depth : Int) = s.depth - n ∧ n < s.depth ∧ (s'.depth : Int) ≤ s.room + 1 := by
  obtain ⟨⟨w, s₁⟩, hpop, h⟩ := Option.bind_eq_some_iff.1 h
  obtain ⟨s₂, hcut, h⟩ := Option.bind_eq_some_iff.1 h
  cases h
  have hdepth := depth_of_pop? hpop
  have hheight := depth_of_cut? hcut
  rw [push_depth]
  omega

@[grind =]
theorem depth_pushAll (s : Stack) (vs : List Value) :
    (s.pushAll vs).depth = s.depth + vs.length := by
  induction vs generalizing s with
  | nil => rfl
  | cons v vs ih =>
    rw [pushAll, ih, push_depth, List.length_cons]
    omega

attribute [grind =] push_depth

end Stack

/-! ### One step -/

/-- Control goes on behind an instruction, with the declared effect. -/
def Inst.Falls (i : Inst) (f f' : Frame) : Prop :=
  i.op.isTerminal = false ∧ f'.ip = f.ip ∧
    (f'.stack.depth : Int) = f.stack.depth - i.effect.1 + i.effect.2

/-- Control goes along a declared jump of an instruction. -/
def Inst.Jumps (i : Inst) (f f' : Frame) : Prop :=
  ⟨f'.ip, f'.stack.depth⟩ ∈ i.successors f.stack.depth

def Frame.SameHandler (f f' : Frame) : Prop :=
  f'.handler = f.handler ∧ f'.handlerDepth = f.handlerDepth

/-- A step falls through or jumps as declared, and changes the handler only if it installs one. -/
def Step.Follows (i : Inst) (f : Frame) : Step → Prop
  | .next f' _ => (i.Falls f f' ∨ i.Jumps f f') ∧
      if i.op = .install then f'.handler = i.target ∧ f'.handlerDepth = i.count
      else f.SameHandler f'
  | .call _ _ g _ => i.op ≠ .install ∧ (∀ v, i.Falls f (g.push v)) ∧ f.SameHandler g ∧
      g.stack.depth ≤ g.stack.room
  | .raise _ g _ => f.SameHandler g ∧ g.stack.depth ≤ g.stack.room
  | .return .. => True

/-- The count of an instruction and the room of a call are machine integers. -/
structure Inst.Fits (i : Inst) (f : Frame) : Prop where
  count : wrapInt i.count = i.count
  depth : f.stack.depth ≤ f.stack.room
  room : (f.stack.room : Int) < 0x7fffffffffffffff

namespace Frame

variable {i : Inst} {f : Frame} {h : Heap}

theorem stepSlot_follows : Gives (Step.Follows i f) (stepSlot i f h) := by
  unfold stepSlot
  split
  all_goals repeat' first
    | refine Gives.bindEq fun _ _ => ?_
    | split
  all_goals simp only [pure, Gives.some, Gives.none]
  all_goals simp only [Step.Follows, Inst.Falls, Inst.effect, Opcode.isTerminal, SameHandler, push,
    withStack, *]
  all_goals grind

theorem mem_of_switchTarget? {table : List Int} {v : Value} {a : Int}
    (h : switchTarget? table v = some a) : a ∈ table := by
  unfold switchTarget? at h
  dsimp only at h
  split at h
  · split at h <;> exact List.mem_of_getElem? h
  · exact List.mem_of_getElem? h

theorem stepControl_follows (hfits : i.Fits f) : Gives (Step.Follows i f) (stepControl i f h) := by
  obtain ⟨hcount, hdepth, hroom⟩ := hfits
  unfold stepControl
  split
  all_goals repeat' first
    | refine Gives.bindEq fun _ _ => ?_
    | split
  all_goals simp only [pure, Gives.some, Gives.none]
  case h_9 hop p hpop a ha =>
    -- a switch goes to one of the entries of its table
    have hheight := (Stack.depth_of_pop? hpop).1
    have hwrap : wrapInt (f.stack.depth - 1) = p.2.depth := by
      rw [wrapInt_of_small (by omega) (by omega)]
      omega
    refine ⟨.inr ?_, by simp [hop, SameHandler, withStack, goto]⟩
    simp only [Inst.Jumps, Inst.successors, hop, List.mem_map, hwrap]
    exact ⟨a, mem_of_switchTarget? ha, rfl⟩
  all_goals simp only [Step.Follows, Inst.Falls, Inst.Jumps, Inst.effect, Inst.successors,
    Opcode.isTerminal, SameHandler, push, withStack, goto, *]
  all_goals grind [wrapInt_of_small]

theorem unpack_follows {v : Value} {s : Stack} (hop : i.op = .unpack)
    (hpop : f.stack.pop? = some (v, s)) (hdepth : f.stack.depth ≤ f.stack.room) :
    Gives (Step.Follows i f) ((f.withStack s).unpack h v i.count) := by
  have hheight := Stack.depth_of_pop? hpop
  -- as many elements are pushed as are asked for, whatever there is
  have hpushed : ∀ vs : List Value, Gives (Step.Follows i f)
      (if i.count < 0 then none else some (.next ((f.withStack s).withStack
        (s.append (elements vs i.count.toNat))) h)) := by
    intro vs
    have hlength : (elements vs i.count.toNat).length = i.count.toNat := by
      simp only [elements, List.length_append, List.length_take, List.length_replicate]
      omega
    have hgrown := Stack.depth_pushAll
      { s with room := Stack.grownRoom s.room (s.depth + (elements vs i.count.toNat).length) }
      (elements vs i.count.toNat)
    split
    · exact Gives.none
    · refine Gives.some.2 ⟨.inl ⟨by simp [hop, Opcode.isTerminal], rfl, ?_⟩, ?_⟩
      · simp only [Inst.effect, hop, withStack, Stack.append, hgrown]
        omega
      · simp [hop, SameHandler, withStack]
  unfold unpack
  dsimp only
  split
  · exact hpushed _
  · exact hpushed _
  · exact hpushed _
  · refine Gives.some.2 ⟨⟨rfl, rfl⟩, ?_⟩
    show s.depth ≤ s.room
    omega

theorem stepData_follows (hfits : i.Fits f) : Gives (Step.Follows i f) (stepData i f h) := by
  obtain ⟨hcount, hdepth, hroom⟩ := hfits
  unfold stepData
  split
  case h_5 hop => exact Gives.bindEq fun _ hpop => unpack_follows hop hpop hdepth
  all_goals repeat' first
    | refine Gives.bindEq fun _ _ => ?_
    | split
    | dsimp only
  all_goals simp only [pure, Gives.some, Gives.none]
  all_goals simp only [Step.Follows, Inst.Falls, Inst.Jumps, Inst.effect, Inst.successors,
    Opcode.isTerminal, SameHandler, push, withStack, goto, *]
  all_goals grind [wrapInt_of_small]

theorem execute_follows (hfits : i.Fits f) : Gives (Step.Follows i f) (execute i f h) := by
  unfold execute
  split <;> first
    | exact stepSlot_follows
    | exact stepControl_follows hfits
    | exact stepData_follows hfits

theorem step_follows {code : Code} (hcode : f.fn.code = some code)
    (hi : code.at? f.ip = some i) (hfits : i.Fits f) :
    Gives (Step.Follows i { f with ip := wrapInt (f.ip + 1) }) (f.step h) := by
  unfold step
  simp only [hcode, hi]
  exact execute_follows ⟨hfits.count, hfits.depth, hfits.room⟩

end Frame

/-! ### Calls that come back -/

namespace Machine

variable {h h' : Heap} {frames frames' base : List Frame}

/-- Some instructions, each of a call above the `n` outermost ones. -/
def ReachesAbove (n : Nat) : List Frame × Heap → List Frame × Heap → Prop :=
  Relation.ReflTransGen fun s s' => n < s.1.length ∧ Goes s s'

/-- What a call of a value comes to when control is back: a value, or an error that no call above has
handled.  The calls that control is back in are as many as before. -/
inductive Answers (h : Heap) (v : Value) (args : List Value) (calls : List Frame) :
    (back : List Frame) → Except Raised Value → Prop where
  | done {w : Value} (callee : callee h expanderLimit v args = .done (.ok w)) :
      Answers h v args calls calls (.ok w)
  | refused {e : Raised} (refuses : Refuses h v args calls e) :
      Answers h v args calls calls (.error e)
  | returned {start back : List Frame} {k : Frame} {h₁ h₂ : Heap} {w : Value}
      (enter : enter h v args calls = .ok start)
      (above : ReachesAbove calls.length (start, h) (k :: back, h₁))
      (height : back.length = calls.length) (step : k.step h₁ = some (.return w h₂)) :
      Answers h v args calls back (.ok w)
  | left {start frames back : List Frame} {k : Frame} {h₁ : Heap} {e : Raised} {a : Int}
      (enter : enter h v args calls = .ok start)
      (above : ReachesAbove calls.length (start, h) (frames, h₁))
      (arrives : Arrives h₁ frames e a k back) (height : back.length = calls.length)
      (inactive : k.handler = noTarget) : Answers h v args calls back (.error e)

/-- The instruction of the innermost call is over, and the call goes on. -/
inductive Completes (f : Frame) (rest : List Frame) (h : Heap) : List Frame → Prop where
  | next {f' : Frame} {h' : Heap} (step : f.step h = some (.next f' h')) :
      Completes f rest h (f' :: rest)
  | call {g : Frame} {h' : Heap} {v w : Value} {args : List Value} {back frames : List Frame}
      (step : f.step h = some (.call v args g h'))
      (answers : Answers h' v args (g :: rest) back (.ok w)) (result : deliver w back = .ok frames) :
      Completes f rest h frames

/-- The instruction of the innermost call raises an error, which goes on from some calls. -/
inductive Fails (f : Frame) (rest : List Frame) (h : Heap) (e : Raised) : List Frame → Prop where
  | raise {g : Frame} {h' : Heap} (step : f.step h = some (.raise e g h')) :
      Fails f rest h e (g :: rest)
  | call {g : Frame} {h' : Heap} {v : Value} {args : List Value} {back : List Frame}
      (step : f.step h = some (.call v args g h'))
      (answers : Answers h' v args (g :: rest) back (.error e)) : Fails f rest h e back

theorem suffix_of_unwind {e : Raised} (hok : unwind e frames = .ok frames') :
    ∃ f g tail, frames' = f :: tail ∧ g :: tail <:+ frames := by
  induction frames with
  | nil => cases hok
  | cons g rest ih =>
    unfold unwind at hok
    split at hok
    · obtain ⟨f, g', tail, rfl, htail⟩ := ih hok
      exact ⟨f, g', tail, rfl, htail.trans (List.suffix_cons g rest)⟩
    · split at hok
      · cases hok
      · cases hok
        exact ⟨_, g, rest, rfl, List.suffix_refl _⟩

/-- After an instruction a call goes on, or a call has been made from the innermost one. -/
theorem Goes.suffix {f : Frame} {rest : List Frame} (hgoes : Goes (f :: rest, h) (frames', h')) :
    ∃ f' tail, frames' = f' :: tail ∧ (tail <:+ rest ∨ ∃ g, tail = g :: rest) := by
  -- an error may leave calls, and the one that handles it goes on
  have hunwind : ∀ {e : Raised} {g : Frame}, unwind e (g :: rest) = .ok frames' →
      ∃ f' tail, frames' = f' :: tail ∧ (tail <:+ rest ∨ ∃ g, tail = g :: rest) := by
    intro e g hok
    obtain ⟨f', g', tail, rfl, htail⟩ := suffix_of_unwind hok
    refine ⟨f', tail, rfl, .inl ?_⟩
    rcases List.suffix_cons_iff.1 htail with heq | hrest
    · rw [(List.cons.inj heq).2]
    · exact (List.suffix_cons g' tail).trans hrest
  obtain ⟨heq⟩ := hgoes
  cases hstep : f.step h with
  | none => simp [hstep, afterStep] at heq
  | some st =>
    rw [hstep] at heq
    cases st with
    | next f' h₁ =>
      cases heq
      exact ⟨f', rest, rfl, .inl (List.suffix_refl _)⟩
    | «return» v h₁ =>
      obtain ⟨hok, -⟩ := Prod.mk.inj heq
      cases rest with
      | nil => cases hok
      | cons g rest =>
        cases hok
        exact ⟨_, rest, rfl, .inl (List.suffix_cons g rest)⟩
    | raise e g h₁ => exact hunwind (Prod.mk.inj heq).1
    | call v args g h₁ =>
      obtain ⟨hok, -⟩ := Prod.mk.inj heq
      unfold Machine.enter at hok
      split at hok
      · cases hok
      · cases hok
        exact ⟨_, rest, rfl, .inl (List.suffix_refl _)⟩
      · exact hunwind hok
      · split at hok
        · exact hunwind hok
        · split at hok
          · cases hok
          · cases hok
            exact ⟨_, _, rfl, .inr ⟨g, rfl⟩⟩

/-- Calls that are below all others stay as they are, until control is back in them. -/
theorem ReachesAbove.suffix {s s' : List Frame × Heap} (hreach : ReachesAbove base.length s s')
    (hbase : base <:+ s.1) (hlt : base.length < s'.1.length) : base <:+ s'.1 := by
  induction hreach with
  | refl => exact hbase
  | @tail s₁ s₂ _ hgoes ih =>
    obtain ⟨habove, hgoes⟩ := hgoes
    have hsuffix := ih habove
    obtain ⟨frames, h⟩ := s₁
    obtain ⟨frames', h'⟩ := s₂
    cases frames with
    | nil => cases habove
    | cons f rest =>
      have hrest : base <:+ rest := by
        rcases List.suffix_cons_iff.1 hsuffix with rfl | hrest
        · exact absurd habove (Nat.lt_irrefl _)
        · exact hrest
      obtain ⟨f', tail, rfl, htail | ⟨g, rfl⟩⟩ := hgoes.suffix
      · have hle : base.length ≤ tail.length := Nat.lt_succ_iff.1 hlt
        exact (List.suffix_of_suffix_length_le hrest htail hle).trans (List.suffix_cons f' tail)
      · exact (hrest.trans (List.suffix_cons g rest)).trans (List.suffix_cons f' _)

theorem ReachesAbove.lt_length {n : Nat} {s s' : List Frame × Heap} (hreach : ReachesAbove n s s')
    (hlt : n < s'.1.length) : n < s.1.length := by
  rcases Relation.ReflTransGen.cases_head hreach with rfl | ⟨_, hgoes, -⟩
  · exact hlt
  · exact hgoes.1

theorem suffix_of_enter {v : Value} {args : List Value} {start : List Frame}
    (hok : enter h v args base = .ok start) (hlt : base.length < start.length) :
    base <:+ start := by
  unfold Machine.enter at hok
  have hunwind : ∀ {e : Raised}, unwind e base = .ok start → base <:+ start := by
    intro e hok
    obtain ⟨f, g, tail, rfl, htail⟩ := suffix_of_unwind hok
    exact absurd htail.length_le (Nat.not_le.2 hlt)
  split at hok
  · cases hok
  · cases base with
    | nil => cases hok
    | cons f rest =>
      cases hok
      exact absurd hlt (Nat.lt_irrefl _)
  · exact hunwind hok
  · split at hok
    · exact hunwind hok
    · split at hok
      · cases hok
      · cases hok
        exact List.suffix_cons _ _

theorem Arrives.suffix {e : Raised} {a : Int} {f : Frame} {below : List Frame}
    (harrives : Arrives h frames e a f below) : below <:+ frames ∧ below.length < frames.length := by
  induction harrives with
  | raised hstate => exact hstate ▸ ⟨List.suffix_cons _ _, Nat.lt_succ_self _⟩
  | refused hstate => exact hstate ▸ ⟨List.suffix_cons _ _, Nat.lt_succ_self _⟩
  | left _ _ ih =>
    exact ⟨(List.suffix_cons _ _).trans ih.1, Nat.lt_of_succ_lt ih.2⟩

theorem Answers.back_eq {v : Value} {args : List Value} {back : List Frame}
    {r : Except Raised Value} (hanswers : Answers h v args base back r) : back = base := by
  -- both are the outermost calls of one state
  have hsame : ∀ {start frames back : List Frame} {h₁ : Heap}, enter h v args base = .ok start →
      ReachesAbove base.length (start, h) (frames, h₁) → back <:+ frames →
      back.length < frames.length → back.length = base.length → back = base := by
    intro start frames back h₁ henter habove hback hlt hlength
    have hlt' : base.length < frames.length := hlength ▸ hlt
    have hbase := habove.suffix (suffix_of_enter henter (habove.lt_length hlt')) hlt'
    exact List.IsSuffix.eq_of_length (List.suffix_of_suffix_length_le hback hbase hlength.le) hlength
  cases hanswers with
  | done => rfl
  | refused => rfl
  | returned henter habove hheight =>
    exact hsame henter habove (List.suffix_cons _ _) (Nat.lt_succ_self _) hheight
  | left henter habove harrives hheight =>
    exact hsame henter habove harrives.suffix.1 harrives.suffix.2 hheight

/-- An active handler is entered with the stack cut to its height and the error on top. -/
theorem unwind_of_handler {g : Frame} {rest : List Frame} (e : Raised) {c : Nat}
    (hactive : g.handler ≠ noTarget) (hdepth : g.handlerDepth = c) (hc : c ≤ g.stack.depth)
    (hroom : g.stack.depth ≤ g.stack.room) :
    ∃ f', unwind e (g :: rest) = .ok (f' :: rest) ∧ f'.ip = g.handler ∧
      f'.stack.depth = c + 1 := by
  obtain ⟨s, hs⟩ : ∃ s, g.stack.cut? c = some s := by
    refine ⟨_, if_neg ?_⟩
    simp only [Bool.or_eq_true, decide_eq_true_eq, not_or]
    omega
  have hheight := (Stack.depth_of_cut? hs).1
  refine ⟨{ g with
    stack := s.push (.error e.type e.message), ip := g.handler, handler := noTarget }, ?_, rfl, ?_⟩
  · rw [unwind, if_neg hactive, hdepth, hs]
  · rw [Stack.push_depth]
    omega

variable {f : Frame} {rest : List Frame} {code : Code} {i : Inst}

/-- Instructions keep to their declarations.  When an instruction of a call is over, control has
fallen through with the declared effect on the height of the stack, or it has gone along one of the
declared jumps.  When it raises an error, control goes on at the active handler, with the values
that this was installed with and the error. -/
theorem instructions_keep_to_declarations (hcode : f.fn.code = some code)
    (hi : code.at? f.ip = some i) (hfits : i.Fits f) (h : Heap) :
    (∀ frames, Completes f rest h frames → ∃ f', frames = f' :: rest ∧
      (i.op.isTerminal = false ∧ f'.ip = wrapInt (f.ip + 1) ∧
          (f'.stack.depth : Int) = f.stack.depth - i.effect.1 + i.effect.2 ∨
        ⟨f'.ip, f'.stack.depth⟩ ∈ i.successors f.stack.depth) ∧
      if i.op = .install then f'.handler = i.target ∧ f'.handlerDepth = i.count
      else f'.handler = f.handler ∧ f'.handlerDepth = f.handlerDepth) ∧
    ∀ e frames, Fails f rest h e frames → ∃ g, frames = g :: rest ∧
      ∀ (t : Int) (c : Nat), t ≠ noTarget → f.handler = t → f.handlerDepth = c →
        c ≤ g.stack.depth →
        ∃ f', unwind e frames = .ok (f' :: rest) ∧ f'.ip = t ∧ f'.stack.depth = c + 1 := by
  have hfollows := Frame.step_follows (h := h) hcode hi hfits
  constructor
  · intro frames hcompletes
    cases hcompletes with
    | @next f' h' hstep =>
      exact ⟨f', rfl, hfollows _ hstep⟩
    | @call g h' v w args back frames hstep hanswers hresult =>
      obtain ⟨hinstall, hfalls, hsame, -⟩ := hfollows _ hstep
      cases hanswers.back_eq
      cases hresult
      refine ⟨g.push w, rfl, .inl (hfalls w), ?_⟩
      rw [if_neg hinstall]
      exact hsame
  · intro e frames hfails
    have hhandled : ∀ {g : Frame}, Frame.SameHandler { f with ip := wrapInt (f.ip + 1) } g →
        g.stack.depth ≤ g.stack.room → ∀ (t : Int) (c : Nat), t ≠ noTarget → f.handler = t →
        f.handlerDepth = c → c ≤ g.stack.depth →
        ∃ f', unwind e (g :: rest) = .ok (f' :: rest) ∧ f'.ip = t ∧ f'.stack.depth = c + 1 := by
      rintro g ⟨hhandler, hdepth⟩ hroom t c hactive ht hc hle
      obtain rfl : g.handler = t := hhandler.trans ht
      exact unwind_of_handler e hactive (hdepth.trans hc) hle hroom
    cases hfails with
    | @raise g h' hstep =>
      obtain ⟨hsame, hroom⟩ := hfollows _ hstep
      exact ⟨g, rfl, hhandled hsame hroom⟩
    | @call g h' v args back hstep hanswers =>
      obtain ⟨-, -, hsame, hroom⟩ := hfollows _ hstep
      cases hanswers.back_eq
      exact ⟨g, rfl, hhandled hsame hroom⟩

theorem instructions_keep_to_declarations_of_call :
    let i : Inst := { Inst.plain 1 .call with count := 1 }
    let fn : Func := ⟨[], 1, 1, 0, 3, 0, 0, [], [], [], some ⟨4, [[i]]⟩⟩
    let f (callee : Value) : Frame := ⟨fn, none, ⟨#[.nil, callee, .int 7], 3, 4⟩, 0, 9, 1⟩
    (∃ f', Completes (f (.builtin [] .first)) [] {} [f'] ∧ f'.ip = 1 ∧ f'.stack.depth = 2) ∧
    ∃ e g f', Fails (f .nil) [] {} e [g] ∧ unwind e [g] = .ok [f'] ∧ f'.ip = 9 ∧
      f'.stack.depth = 2 := by
  intro i fn f
  have hfits : ∀ v, i.Fits (f v) := fun v =>
    ⟨rfl, show 3 ≤ 4 by decide, show (4 : Int) < 0x7fffffffffffffff by decide⟩
  have hat : Code.at? ⟨4, [[i]]⟩ 0 = some i := by simp [Code.at?]
  have hsteps : ∀ v, (f v).step {} = some (.call v [.int 7]
      ⟨fn, none, ⟨#[.nil, v, .int 7], 1, 4⟩, 1, 9, 1⟩ {}) := fun v => by
    simp [f, fn, i, Frame.step, Code.at?, Frame.execute, Frame.stepControl, Inst.plain, Stack.popN?,
      Stack.pop?, Stack.top?, Frame.withStack, wrapInt]
  constructor
  · have hanswers : Answers {} (.builtin [] .first) [.int 7]
        [⟨fn, none, ⟨#[.nil, .builtin [] .first, .int 7], 1, 4⟩, 1, 9, 1⟩] _ (.ok (.int 7)) := .done rfl
    have hcompletes := Completes.call (hsteps _) hanswers rfl
    obtain ⟨f', hf', hmoves, -⟩ :=
      (instructions_keep_to_declarations rfl hat (hfits _) {}).1 _ hcompletes
    rw [hf'] at hcompletes
    rcases hmoves with ⟨-, hip, hheight⟩ | hjump
    · exact ⟨f', hcompletes, hip, Int.ofNat.inj hheight⟩
    · cases hjump
  · have hfails : Fails (f .nil) [] {} _ _ := .call (hsteps .nil) (.refused (.failed rfl))
    obtain ⟨g, hg, hhandled⟩ :=
      (instructions_keep_to_declarations rfl hat (hfits _) {}).2 _ _ hfails
    rw [hg] at hfails hhandled
    have hheight : 1 ≤ g.stack.depth := by
      cases hg
      decide
    obtain ⟨f', hok, hip, hdepth⟩ := hhandled 9 1 (by decide) rfl rfl hheight
    exact ⟨_, g, f', hfails, hok, hip, hdepth⟩

end Machine

end StagedScript
