import StagedScript.Proofs.Compile.Journal
import StagedScript.Proofs.Sound.Parser

/-!
# Compiling sources to sound functions

Each round of a compilation leaves it ready to go on, and so does the answer to a call, because the
machine keeps the heap sound.  A compilation that ends with a function therefore ends with a sound
one, and leaves a sound heap behind.  The journal has this function and all functions in it.
-/

namespace StagedScript

/-- An evaluator of calls keeps heaps sound, and answers with sound values. -/
def Evaluator.Sound (ev : Evaluator) : Prop :=
  ∀ (call : EvalCall) (h : Heap) (cancellation : Cancellation), h.Sound →
    call.fn.Sound h.capturedCount? → (∀ v ∈ call.args, v.Sound h.capturedCount?) →
    CapturedCounts.Extends h.capturedCount? (ev call h cancellation).heap.capturedCount? ∧
      (ev call h cancellation).heap.Sound ∧
      ∀ v, .value v ∈ (ev call h cancellation).answers →
        v.Sound (ev call h cancellation).heap.capturedCount?

theorem Evaluator.machine_sound : Evaluator.machine.Sound := by
  intro call h cancellation hh hfn hargs
  have hr := Machine.callWithin_sound hh hfn hargs Machine.stepLimit cancellation
  refine ⟨hr.grows.extends, hr.heap, fun v hv => hr.value v ?_⟩
  have hanswer : answerOf (Machine.call h cancellation call.fn call.args).outcome = .value v :=
    (List.mem_singleton.1 hv).symm
  unfold Machine.call at hanswer
  revert hanswer
  cases (Machine.callWithin Machine.stepLimit h cancellation call.fn call.args).outcome <;>
    simp [answerOf]

theorem Globals.prelude_sound : Globals.prelude.Sound := by
  intro z name v hv
  simp only [prelude, table] at hv
  split at hv
  · rename_i w hw
    obtain rfl : w = v := by simpa using hv
    obtain ⟨m, hm, rfl⟩ := Option.map_eq_some_iff.1 hw
    have hmem := List.mem_of_find?_eq_some hm
    simp only [preludeMembers, List.mem_cons, List.not_mem_nil, or_false] at hmem
    rcases hmem with rfl | rfl | rfl | rfl | rfl | rfl <;> trivial
  · cases hv

section

variable {L : Log} {s : CompileState} {call : EvalCall}

theorem Asks.mono {E E' : Env} {y : Nesting} {w : Waiting} {x : Context} {l : Layout}
    (h : Asks L E y w x l) (hE : E.Extends E') : Asks L E' y w x l := by
  obtain ⟨x', k, hawaits, hin⟩ := h.inside
  exact ⟨h.describes.mono hE, h.waiting, x', k, hawaits, hin.mono hE⟩

theorem Expr.SoundStatement.mono {z z' : CapturedCounts} {vars lets defs : List Decl} {e : Expr}
    (h : e.SoundStatement z vars lets defs) (hz : z.Extends z') :
    e.SoundStatement z' vars lets defs :=
  statementsSound_iff.1 ((statementsSound_iff.2 (List.forall_mem_singleton.2 h)).mono hz) e
    List.mem_cons_self

/-- Others leave a heap in which more functions may have captured values. -/
theorem Poised.withHeap {next : Next} {heap : Heap} (hpoised : Poised L next s) (hheap : heap.Sound)
    (hcounts : CapturedCounts.Extends s.heap.capturedCount? heap.capturedCount?) :
    Poised L next { s with heap } := by
  have extend : ∀ {E y cur}, At L E y cur s →
      E.Extends { E with counts := heap.capturedCount? } ∧
        At L { E with counts := heap.capturedCount? } y cur { s with heap } := by
    intro E y cur h
    have hE : E.Extends { E with counts := heap.capturedCount? } :=
      ⟨rfl, fun _ _ h => h, le_rfl, fun _ _ h => h, h.counts ▸ hcounts⟩
    refine ⟨hE, h.extend hE rfl rfl rfl ⟨h.bindings.slots, fun b hb => ?_⟩ hheap rfl⟩
    obtain ⟨hvalue, hplaceholder⟩ := h.bindings.sound b hb
    exact ⟨hvalue.mono hE.counts, fun v hv => (hplaceholder v hv).mono hE.counts⟩
  cases hpoised with
  | compile h ha hown horigin he =>
    obtain ⟨hE, h⟩ := extend h
    exact .compile h (ha.mono hE) hown horigin (he.mono hE.counts)
  | statement h ha hown horigin hlevel he =>
    obtain ⟨hE, h⟩ := extend h
    exact .statement h (ha.mono hE) hown horigin hlevel (he.mono hE.counts)
  | give h hx hl hy hw hin hkeeps hgiven =>
    obtain ⟨hE, h⟩ := extend h
    exact .give h (hx.mono hE) hl hy (hw.mono hE) (hin.mono hE) hkeeps hgiven
  | last h hx hl hy hlast =>
    obtain ⟨hE, h⟩ := extend h
    exact .last h (hx.mono hE) hl hy hlast
  | answer h hw hkeeps hgiven hv hcapture =>
    obtain ⟨hE, h⟩ := extend h
    exact .answer h (hw.mono hE) hkeeps hgiven (hv.mono hE.counts) hcapture
  | wait h hw hkeeps hgiven hhead hfn hargs =>
    obtain ⟨hE, h⟩ := extend h
    exact .wait h (hw.mono hE) hkeeps hgiven hhead (hfn.mono hE.counts) fun v hv =>
      (hargs v hv).mono hE.counts

theorem Poised.answered (hpoised : Poised L (.wait call) s) {v : Value}
    (hv : v.Sound s.heap.capturedCount?) : Poised L (.give v) s := by
  cases hpoised with
  | wait h hw hkeeps hgiven hhead hfn hargs =>
    refine .answer h hw hkeeps hgiven (h.counts ▸ hv) fun _ _ span types hclosure => ?_
    exact absurd hclosure (hhead span types)

theorem Journal.Describes.answered {j : Journal} {v : Value}
    (h : j.Describes L (.wait call)) : j.Describes L (.give v) := by
  obtain ⟨cs, hcurrent, horigin⟩ := h.current
  refine ⟨⟨cs, hcurrent, ?_⟩, h.finished⟩
  rw [← horigin]
  cases cs <;> rfl

end

theorem Journal.Certified.congr {j j' : Journal} (h : j.Certified) (hj : j'.finished = j.finished) :
    j'.Certified := by
  unfold Certified functions
  rw [hj]
  exact h

def Phase.isFailure : Phase → Bool
  | .fail _ | .stuck => true
  | _ => false

namespace Task

/-- A compilation is at the start of a round with a log. -/
def Tracks (t : Task) (L : Log) : Prop :=
  t.reports = [] ∧ ∃ next : Next, t.phase = next.phase ∧ L.Starts next t.state

/-- What a round does to a compilation. -/
inductive Proceeds (L : Log) (t : Task) : Task → Prop where
  | continues {L' next new bound ws t'} (hready : Ready L next t'.state)
      (hnext : L.Continues L' new bound ws next t'.state) (hphase : t'.phase = next.phase)
      (h : t'.Tracks L') : Proceeds L t t'
  | finishes {fn t'} (hphase : t'.phase = .finish fn) (hreports : t'.reports = [])
      (h : L.Finishes t'.state fn) : Proceeds L t t'
  | fails {t'} (hphase : t'.phase.isFailure = true) (hreports : t'.reports = []) : Proceeds L t t'
  | waits {call} (hphase : t.phase = .wait call) : Proceeds L t { t with active := false }

/-- A compilation has made a function. -/
structure Makes (j : Journal) (s : CompileState) (fn : Func) : Prop where
  heap : s.heap.Sound
  sound : fn.Sound s.heap.capturedCount?
  params : fn.params = []
  mem : fn ∈ j.functions

/-- A compilation goes on, or has failed, or has made a function, or has reported the result. -/
inductive Stands (t : Task) (j : Journal) : Prop where
  | goesOn {L} (hj : j.Describes L t.phase) (h : t.Tracks L)
  | fails (hphase : t.phase.isFailure = true) (hreports : t.reports = [])
  | makes {fn} (hphase : t.phase = .finish fn) (hreports : t.reports = []) (h : Makes j t.state fn)
  | reported (hphase : t.phase = .reported) (h : ∀ fn, .ok fn ∈ t.reports → Makes j t.state fn)

/-- The journal of a compilation is right, and the compilation can go on or has ended well. -/
structure Sound (t : Task) (j : Journal) : Prop where
  certified : j.Certified
  stands : t.Stands j

variable {settings : Settings} {t : Task} {j : Journal} {L : Log} {phase : Phase}

theorem afterAction_proceeds (hglobals : settings.globals.Sound) {next : Next}
    {action : Compiling Next} {s : CompileState} (h : L.Starts next s)
    (haction : next.action? = some action) (cancellation : Cancellation) :
    Proceeds L t (afterAction cancellation [] (action settings s)) := by
  cases hrun : action settings s with
  | ok next' s' =>
    have hready := h.acts haction hglobals next' s' hrun
    obtain ⟨fn, rfl, hfinishes⟩ | ⟨new, bound, ws, L', hnext⟩ := hready.moves h.valid
    · exact .finishes rfl rfl hfinishes
    · have hphase : (afterAction cancellation [] (.ok next' s')).phase = next'.phase := by
        cases next' <;> rfl
      exact .continues hready hnext hphase ⟨rfl, next', hphase, h.continues haction hrun hnext⟩
  | error trouble s' => cases trouble <;> exact .fails rfl rfl

theorem Tracks.advance (hglobals : settings.globals.Sound) (h : t.Tracks L) :
    Proceeds L t (t.advance settings) := by
  obtain ⟨phase, active, state, cancellation, reports⟩ := t
  obtain ⟨rfl, next, hphase, hstarts⟩ := h
  obtain rfl : phase = next.phase := hphase
  cases next with
  | compile e =>
    simp only [Next.phase, Task.advance]
    split
    · exact .fails rfl rfl
    · exact afterAction_proceeds hglobals hstarts rfl _
  | give v => exact afterAction_proceeds hglobals hstarts rfl _
  | wait call => exact .waits rfl
  | done fn => cases hstarts.poised

theorem Makes.follow {s : CompileState} {fn : Func} (h : Makes j s fn) {t' : Task}
    (hphase : t'.phase = .reported) : Makes (j.follow phase t') s fn := by
  refine { h with mem := ?_ }
  rw [Journal.functions, Journal.follow_finished (by simp [hphase]) (by simp [hphase])]
  exact h.mem

/-- A round after which no function is given or reported. -/
theorem Sound.rest {t' : Task} (hcert : j.Certified) (h : t'.Stands (j.follow phase t'))
    (hphase : t'.phase.isFailure = true ∨ t'.phase = .reported) :
    t'.Sound (j.follow phase t') := by
  refine ⟨hcert.congr (Journal.follow_finished ?_ ?_), h⟩
  all_goals
    intro result hresult
    simp [hresult, Phase.isFailure] at hphase

theorem Sound.advance (hglobals : settings.globals.Sound) (h : t.Sound j) :
    (t.advance settings).Sound (j.follow t.phase (t.advance settings)) := by
  obtain ⟨hcert, hstands⟩ := h
  cases hstands with
  | @goesOn L hj htracks =>
    have hproceeds := htracks.advance hglobals
    obtain ⟨hreports, next, hphase, hstarts⟩ := htracks
    generalize t.advance settings = t' at hproceeds ⊢
    cases hproceeds with
    | continues _ hnext hphase h =>
      have hfollow := hj.follow hcert hnext.emits hstarts.valid hstarts.fresh.1 hnext.known
        hnext.moves hnext.waits
        hphase
      exact ⟨hfollow.2, .goesOn hfollow.1 h⟩
    | finishes hphase hreports h =>
      obtain ⟨hlast, ⟨new, ws, hnew, hwaits, hmarked⟩, hheap, hsound, hparams⟩ := h
      obtain ⟨hmem, hcert⟩ := hj.follow_finish hcert hnew hstarts.valid hlast hmarked hwaits hphase
      exact ⟨hcert, .makes hphase hreports ⟨hheap, hsound, hparams, hmem⟩⟩
    | fails hphase hreports => exact .rest hcert (.fails hphase hreports) (.inl hphase)
    | @waits call hwait =>
      -- waiting again changes nothing but that no rounds are running
      obtain rfl : next = .wait call := by cases next <;> cases hphase.symm.trans hwait; rfl
      have hwaits : ∃ w, L.Waits ([w] ++ L.frames) t.state ∧ L.origin.given = some w := by
        cases hstarts.poised with
        | wait h hw hkeeps hgiven => exact ⟨_, h.waits hstarts.fresh.2 hw.waiting, hgiven⟩
      obtain ⟨w, hwaits, hgiven⟩ := hwaits
      have horigin : ((L.withMarks []).record (L.constructs [w])).origin (.wait call) = L.origin := by
        change Origin.mk L.origin.expr L.origin.start (some w) L.origin.around = L.origin
        rw [← hgiven]
      have hfollow := hj.follow_round (t := { t with active := false }) hcert (List.forall_mem_nil _)
        hwaits rfl rfl rfl (List.append_nil _).symm (by simp [hwait]) (hwait ▸ horigin)
      exact ⟨hfollow.2, .goesOn hfollow.1 ⟨hreports, _, hphase, hstarts⟩⟩
  | fails hphase hreports =>
    obtain ⟨phase, active, state, cancellation, reports⟩ := t
    obtain rfl : reports = [] := hreports
    cases phase with
    | fail e => exact .rest hcert (.reported rfl (by simp [Task.advance, Task.report])) (.inr rfl)
    | stuck => exact .rest hcert (.fails rfl rfl) (.inl rfl)
    | _ => cases hphase
  | makes hphase hreports h =>
    obtain ⟨phase, active, state, cancellation, reports⟩ := t
    obtain ⟨rfl, rfl⟩ : phase = _ ∧ reports = [] := ⟨hphase, hreports⟩
    refine .rest hcert (.reported rfl fun fn' hfn' => ?_) (.inr rfl)
    obtain rfl : fn' = _ := by simpa [Task.advance, Task.report] using hfn'
    exact h.follow rfl
  | reported hphase h =>
    obtain ⟨phase, active, state, cancellation, reports⟩ := t
    obtain rfl : phase = .reported := hphase
    exact .rest hcert (.reported rfl fun fn hfn => (h fn hfn).follow rfl) (.inr rfl)

theorem deliver_cases (t : Task) (a : Answer) :
    (t.deliver a).state = t.state ∧ (t.deliver a).reports = t.reports ∧
      ((t.deliver a).phase = t.phase ∨ (∃ v, a = .value v ∧ (t.deliver a).phase = .give v) ∨
        (t.deliver a).phase.isFailure = true) := by
  unfold deliver
  split
  · cases a <;> simp [Phase.isFailure]
  · exact ⟨rfl, rfl, .inl rfl⟩

theorem deliverAll_cases (t : Task) (answers : List Answer) :
    (answers.foldl deliver t).state = t.state ∧ (answers.foldl deliver t).reports = t.reports ∧
      ((answers.foldl deliver t).phase = t.phase ∨
        (∃ v, .value v ∈ answers ∧ (answers.foldl deliver t).phase = .give v) ∨
        (answers.foldl deliver t).phase.isFailure = true) := by
  induction answers generalizing t with
  | nil => exact ⟨rfl, rfl, .inl rfl⟩
  | cons a answers ih =>
    obtain ⟨hstate, hreports, hphase⟩ := ih (t.deliver a)
    obtain ⟨hstate', hreports', hphase'⟩ := t.deliver_cases a
    refine ⟨hstate.trans hstate', hreports.trans hreports', ?_⟩
    obtain hphase | ⟨v, hv, hphase⟩ | hfails := hphase
    · rw [List.foldl_cons, hphase]
      exact hphase'.imp_right (Or.imp_left fun ⟨v, ha, hv⟩ => ⟨v, ha ▸ List.mem_cons_self, hv⟩)
    · exact .inr (.inl ⟨v, List.mem_cons_of_mem _ hv, hphase⟩)
    · exact .inr (.inr hfails)

/-- Nothing is evaluated, or the answers to a call are given. -/
theorem evaluate_of_not_wait (ev : Evaluator) (t : Task)
    (h : ∀ call, t.phase = .wait call → t.active = false) : evaluate ev t = t := by
  obtain ⟨phase, active, _, _, _⟩ := t
  cases phase with
  | wait call =>
    obtain rfl : active = false := h call rfl
    rfl
  | _ => rfl

theorem evaluate_cases (ev : Evaluator) (t : Task) :
    t.evaluate ev = t ∨ ∃ call, t.phase = .wait call ∧
      t.evaluate ev = (ev call t.state.heap t.cancellation).answers.foldl deliver
        { t with
          state := { t.state with heap := (ev call t.state.heap t.cancellation).heap }
          cancellation := (ev call t.state.heap t.cancellation).cancellation } := by
  unfold evaluate
  split
  · exact .inr ⟨_, rfl, rfl⟩
  · exact .inl rfl

theorem Tracks.evaluate {ev : Evaluator} (hev : ev.Sound) (h : t.Tracks L) :
    (t.evaluate ev).state.functions = t.state.functions ∧
      ((t.evaluate ev).Tracks L ∧ ((t.evaluate ev).phase = t.phase ∨
          ∃ call v, t.phase = .wait call ∧ (t.evaluate ev).phase = .give v) ∨
        (t.evaluate ev).phase.isFailure = true ∧ (t.evaluate ev).reports = []) := by
  obtain heq | ⟨call, hwait, heq⟩ := t.evaluate_cases ev
  · rw [heq]
    exact ⟨rfl, .inl ⟨h, .inl rfl⟩⟩
  obtain ⟨hreports, next, hphase, hvalid, hpoised, hfresh⟩ := h
  obtain rfl : next = .wait call := by cases next <;> cases hphase.symm.trans hwait; rfl
  have hcall : t.state.heap.Sound ∧ call.fn.Sound t.state.heap.capturedCount? ∧
      ∀ v ∈ call.args, v.Sound t.state.heap.capturedCount? := by
    cases hpoised with
    | wait h hw hkeeps hgiven hhead hfn hargs =>
      rw [← h.counts]
      exact ⟨h.heap_sound, hfn, hargs⟩
  obtain ⟨hcounts, hheap, hvalues⟩ := hev call t.state.heap t.cancellation hcall.1 hcall.2.1 hcall.2.2
  replace hpoised := hpoised.withHeap hheap hcounts
  obtain ⟨hstate, hreports', hanswer⟩ := deliverAll_cases _ (ev call t.state.heap t.cancellation).answers
  rw [← heq] at hstate hreports' hanswer
  refine ⟨congrArg (·.functions) hstate, ?_⟩
  obtain hphase' | ⟨v, hv, hphase'⟩ | hfails := hanswer
  · refine .inl ⟨⟨hreports'.trans hreports, .wait call, hphase'.trans hphase, ?_⟩, .inl hphase'⟩
    rw [hstate]
    exact ⟨hvalid, hpoised, hfresh⟩
  · refine .inl ⟨⟨hreports'.trans hreports, .give v, hphase', ?_⟩, .inr ⟨call, v, hwait, hphase'⟩⟩
    rw [hstate]
    exact ⟨hvalid, hpoised.answered (hvalues v hv), hfresh⟩
  · exact .inr ⟨hfails, hreports'.trans hreports⟩

theorem Sound.evaluate {ev : Evaluator} (hev : ev.Sound) (h : t.Sound j) :
    (t.evaluate ev).Sound j := by
  obtain heq | ⟨call, hwait, -⟩ := t.evaluate_cases ev
  · rwa [heq]
  obtain ⟨hcert, hstands⟩ := h
  refine ⟨hcert, ?_⟩
  cases hstands with
  | goesOn hj htracks =>
    obtain ⟨-, ⟨htracks, hphase | ⟨call, v, hwait, hphase⟩⟩ | ⟨hfails, hreports⟩⟩ :=
      htracks.evaluate hev
    · exact .goesOn (hphase ▸ hj) htracks
    · rw [hwait] at hj
      exact .goesOn (hphase ▸ hj.answered) htracks
    · exact .fails hfails hreports
  | fails hphase => simp [hwait, Phase.isFailure] at hphase
  | makes hphase => cases hwait.symm.trans hphase
  | reported hphase => cases hwait.symm.trans hphase

/-- Rounds and answers keep a compilation sound, and its journal right. -/
theorem Sound.run {ev : Evaluator} (hglobals : settings.globals.Sound) (hev : ev.Sound)
    (h : t.Sound j) (fuel : Nat) :
    (Task.run settings ev fuel t).Sound (Task.journal settings ev fuel t j) := by
  induction fuel generalizing t j with
  | zero => exact h
  | succ fuel ih =>
    unfold Task.run Task.journal
    by_cases hactive : t.active = true
    · rw [if_pos hactive, if_pos hactive]
      exact ih ((h.advance hglobals).evaluate hev)
    · rw [if_neg hactive, if_neg hactive]
      exact h

def startLog (settings : Settings) (root : Expr) : Log where
  body := root
  past := []
  bound := []
  origin := ⟨root, 0, none, []⟩
  last := .finish settings.root true
  pins := [⟨(Context.ofParams 0).toRecords, []⟩]
  outer := []
  finished := []
  began := 0

theorem start_starts (settings : Settings) {heap : Heap} (hheap : heap.Sound)
    (cancellation : Cancellation) {root : Expr} (hroot : root.Sound heap.capturedCount?) :
    (startLog settings root).Starts (.compile root)
      (start settings heap cancellation root).state := by
  have h : At (startLog settings root) ⟨true, [], 0, [], heap.capturedCount?⟩
      ⟨⟨[], [], [], none, []⟩, [], [.finish settings.root true]⟩
      (.live ⟨Layout.values 0, (Context.ofParams 0).watch⟩)
      (start settings heap cancellation root).state :=
    ⟨⟨_, [], rfl, rfl, .start rfl rfl rfl rfl (fun _ => rfl) rfl rfl, rfl, rfl,
      rfl⟩, ⟨rfl, by simp [start]⟩, hheap, rfl⟩
  have hx : (Context.ofParams 0).Describes ⟨true, [], 0, [], heap.capturedCount?⟩
      ⟨⟨[], [], [], none, []⟩, [], [.finish settings.root true]⟩ :=
    ⟨rfl, ⟨nofun, nofun, nofun, nofun⟩, nofun⟩
  exact ⟨⟨⟨.body, .nil, List.forall_mem_nil _, List.forall_mem_nil _⟩, .off rfl,
      List.forall_mem_nil _⟩, .compile h ⟨⟨Context.ofParams_fits _ _, ⟨⟨_, rfl, rfl, nofun⟩,
      .inl ⟨_, rfl, rfl, rfl⟩⟩, rfl⟩, hx⟩ rfl rfl hroot, rfl, _, [], rfl, rfl⟩

theorem start_sound (settings : Settings) {heap : Heap} (hheap : heap.Sound)
    (cancellation : Cancellation) {root : Expr} (hroot : root.Sound heap.capturedCount?) :
    (start settings heap cancellation root).Sound (.start root) :=
  ⟨List.forall_mem_nil _, .goesOn ⟨⟨[], rfl, rfl⟩, rfl⟩
    ⟨rfl, .compile root, rfl, start_starts settings hheap cancellation hroot⟩⟩

end Task

section

variable {globals : Globals} (hglobals : globals.Sound) {ev : Evaluator} (hev : ev.Sound)
  {heap : Heap} (hheap : heap.Sound) {e : Expr} (he : e.Sound heap.capturedCount?)
  (blockSize : Int) (cancellation : Cancellation)

include hglobals hev hheap he

/-- What an expression compiles to is sound, has no parameters, and is found in the journal. -/
theorem compileTree_makes {fn : Func}
    (hfn : (compileTree globals blockSize ev heap cancellation e).outcome = .func fn) :
    (compileTree globals blockSize ev heap cancellation e).heap.Sound ∧
      fn.Sound (compileTree globals blockSize ev heap cancellation e).heap.capturedCount? ∧
      fn.params = [] ∧
      fn ∈ (journalTree globals blockSize ev heap cancellation e).map (·.1) := by
  unfold compileTree at hfn ⊢
  unfold journalTree
  dsimp only at hfn ⊢
  have hroot : (Task.rootOf e).Sound heap.capturedCount? := orNil_sound he _
  generalize hs : (⟨globals, blockSize, (Task.rootOf e).span?.getD ⟨[], 0, 0⟩⟩ : Settings) =
    settings at hfn ⊢
  have hsettings : settings.globals.Sound := by rw [← hs]; exact hglobals
  have hrun := (Task.start_sound settings hheap cancellation hroot).run hsettings hev
    Task.roundLimit
  generalize Task.run settings ev Task.roundLimit
    (Task.start settings heap cancellation (Task.rootOf e)) = t at hrun hfn ⊢
  split at hfn
  · rename_i fn' rest hreports
    obtain rfl : fn' = fn := by simpa using hfn
    obtain ⟨-, hstands⟩ := hrun
    cases hstands with
    | goesOn _ h => cases hreports.symm.trans h.1
    | fails _ hnone => cases hreports.symm.trans hnone
    | makes _ hnone => cases hreports.symm.trans hnone
    | reported _ hok =>
      obtain ⟨hheap, hsound, hparams, hmem⟩ := hok fn' (by rw [hreports]; exact List.mem_cons_self)
      exact ⟨hheap, hsound, hparams, hmem⟩
  all_goals cases hfn

theorem journalTree_recorded {fn : Func} {r : Record}
    (hfn : (fn, r) ∈ journalTree globals blockSize ev heap cancellation e) :
    fn.Recorded r ((journalTree globals blockSize ev heap cancellation e).map (·.1)) :=
  have hrun := (Task.start_sound _ hheap cancellation (orNil_sound he _)).run hglobals hev
    Task.roundLimit
  hrun.certified _ hfn

end

namespace Compiler

variable {compiler : Compiler} (hglobals : compiler.globals.Sound)
  (hev : compiler.evaluator.Sound) {heap heap' : Heap} (hheap : heap.Sound)
  (cancellation : Cancellation) (source text : Bytes) {fn : Func}

include hheap in
/-- The tree of a text is sound, and so is the heap with its declarations. -/
theorem parse_sound {source text : Bytes} {e : Expr}
    (hparse : compiler.parse heap source text = .ok (e, heap')) :
    heap'.Sound ∧ e.Sound heap'.capturedCount? := by
  unfold parse at hparse
  split at hparse
  · cases hparse
  · rename_i hunit
    cases hparse
    exact ⟨⟨hheap.cells, hheap.environments, hheap.iterations, hheap.forwards⟩,
      (parseUnit_sound hunit).2⟩

include hglobals hev hheap

theorem journal_recorded {r : Record}
    (hfn : (fn, r) ∈ compiler.journal heap cancellation source text) :
    fn.Recorded r ((compiler.journal heap cancellation source text).map (·.1)) := by
  unfold journal at hfn ⊢
  split at hfn
  · cases hfn
  · rename_i hparse
    obtain ⟨hheap', he⟩ := parse_sound hheap hparse
    exact journalTree_recorded hglobals hev hheap' he _ _ hfn

variable (hfn : (compiler.compileText heap cancellation source text).outcome = .func fn)

include hfn

theorem compileText_sound :
    (compiler.compileText heap cancellation source text).heap.Sound ∧
      fn.Sound (compiler.compileText heap cancellation source text).heap.capturedCount? ∧
      fn.params = [] := by
  unfold compileText at hfn ⊢
  split at hfn
  · cases hfn
  · rename_i hparse
    obtain ⟨hheap', he⟩ := parse_sound hheap hparse
    have hmakes := compileTree_makes hglobals hev hheap' he _ _ hfn
    exact ⟨hmakes.1, hmakes.2.1, hmakes.2.2.1⟩

theorem exists_mem_journal : ∃ r, (fn, r) ∈ compiler.journal heap cancellation source text := by
  unfold compileText at hfn
  unfold journal
  cases hparse : compiler.parse heap source text with
  | error e =>
    rw [hparse] at hfn
    cases hfn
  | ok tree =>
    rw [hparse] at hfn
    obtain ⟨hheap', he⟩ := parse_sound hheap hparse
    obtain ⟨-, -, -, hmem⟩ := compileTree_makes hglobals hev hheap' he _ _ hfn
    obtain ⟨⟨fn, r⟩, hr, rfl⟩ := List.mem_map.1 hmem
    exact ⟨r, hr⟩

end Compiler

end StagedScript
