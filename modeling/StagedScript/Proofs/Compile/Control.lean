import StagedScript.Proofs.Compile.Operand

/-!
# Conditionals, loops and choices

Each construct leaves one value on the stack on all of its paths: its labels have the layouts that
the jumps to them arrive with.
-/

namespace StagedScript

variable {L : Log} {E E' : Env} {y : Nesting} {cur : Cursor} {s : CompileState} {c : Settings}
  {x : Context} {l k : Layout}

namespace Compiling

/-! ### Connectives -/

theorem resumeLogicLeft_ready (h : At L E y (.live ⟨.value :: k, x.watch⟩) s) (ha : Around L E y x k)
    (span : Span) (o : Connective) {right : Expr} (hright : right.Sound E.counts)
    (hpart : L.Has right) {done : Label} (hdone : x.EndsAt E k done) :
    Runs c (resumeLogicLeft span o right done) s (Ready L) := by
  unfold resumeLogicLeft
  cases o with
  | conj =>
    exact Runs.bind (jump_at h (.connective k (.inl rfl)) hdone rfl (.refl _) rfl rfl nofun) fun _ _ h =>
        andThen_ready h (ha.push ha.describes ha.fits (.logicRight hdone)) ⟨nofun, hpart⟩ hright
  | disj =>
    exact Runs.bind (jump_at h (.connective k (.inr rfl)) hdone rfl (.refl _) rfl rfl nofun) fun _ _ h =>
        andThen_ready h (ha.push ha.describes ha.fits (.logicRight hdone)) ⟨nofun, hpart⟩ hright

theorem resumeLogicRight_ready (h : At L E y (.live ⟨.value :: k, x.watch⟩) s) (ha : Around L E y x k)
    {done : Label} (hdone : x.EndsAt E k done) : Runs c (resumeLogicRight done) s (Ready L) := by
  refine (height_at h).bind ?_
  rintro _ _ ⟨rfl, rfl⟩
  exact bindDone_ready h ha (by rintro _ ⟨⟩; rfl) hdone (by simp)

/-! ### Conditionals -/

variable {clauses : List SelectClause} {cs : CondScope} {otherwise : Expr} {sel : SelectScope}
  {cl : ClauseScope} {arms : List Expr} {sw : SwitchScope} {f : ForScope}

theorem endCond_ready (h : At L E y (.live ⟨.value :: k, x.watch⟩) s) (ha : Around L E y x k)
    (hc : cs.Fits E x k) : Runs c (endCond cs) s (Ready L) :=
  bindDone_ready h ha (by rintro _ ⟨⟩; rfl) hc.done (by rw [hc.depth])

theorem condArms_ready (h : At L E y (.live ⟨k, x.watch⟩) s) (ha : Around L E y x k)
    (hc : cs.Fits E x k) {arms : List CondCase} (harms : CondCase.AllSound E.counts arms)
    (hparts : ∀ e ∈ cs.otherwise :: CondCase.parts arms, L.Has e) :
    Runs c (condArms cs arms) s (Ready L) := by
  unfold condArms
  cases arms with
  | nil =>
    refine .ite (fun _ => ?_) fun _ => ?_
    · exact Runs.bind (op_at h (.push k (.inl rfl)) rfl rfl nofun) fun _ _ h =>
        endCond_ready h ha hc
    · exact andThen_ready h (ha.push ha.describes ha.fits (.condElse hc))
        ⟨nofun, hparts _ List.mem_cons_self⟩ hc.otherwise
  | cons arm later =>
    have harm := CondCase.allSound_iff.1 harms arm List.mem_cons_self
    have hlater : CondCase.AllSound E.counts later :=
      CondCase.allSound_iff.2 fun a ha => CondCase.allSound_iff.1 harms a (List.mem_cons_of_mem _ ha)
    obtain ⟨hotherwise, hcond, hbody, hrest⟩ : L.Has cs.otherwise ∧ L.Has arm.cond ∧
        L.Has arm.body ∧ ∀ e ∈ CondCase.parts later, L.Has e := by
      simpa [CondCase.parts] using hparts
    have hpending : ∀ e ∈ arm.body :: cs.otherwise :: CondCase.parts later, L.Has e :=
      List.forall_mem_cons.2 ⟨hbody, List.forall_mem_cons.2 ⟨hotherwise, hrest⟩⟩
    -- both ways to bind the condition reserve a slot for it, which the test leaves in place
    have bound : ∀ (n : Bytes) (isVariable : Bool),
        Runs c (do
          let next ← newLabel
          let bound ← (do
            let b : Binding := { name := n, line := arm.line, slot := ← height, isVariable }
            enter arm.line [b.info]
            return some (← newBinding b))
          andThen arm.cond (.condTest cs arm later next bound)) s (Ready L) := by
      intro n isVariable
      refine (newLabel_at h ⟨.value :: k, x.watch⟩).bind ?_
      rintro next s ⟨E₁, hE₁, hnext, h⟩
      refine Runs.bind (P := fun o s' => ∃ id E₂, o = some id ∧ E₁.Extends E₂ ∧
        E₂.slots[id]? = some (some (k.length : Int)) ∧
        At L E₂ y (.live ⟨.value :: k, x.watch⟩) s') ?_ ?_
      · refine (height_at h).bind ?_
        rintro _ _ ⟨rfl, rfl⟩
        refine Runs.bind (emit_at h (.enter k rfl) rfl rfl (.plain rfl rfl) nofun)
          fun _ s h => ?_
        refine Runs.bind (newBinding_at h ⟨trivial, nofun⟩) ?_
        rintro id s ⟨E₂, hE₂, hid, h⟩
        exact .pure ⟨id, E₂, rfl, hE₂, hid, h⟩
      · rintro _ s ⟨id, E₂, rfl, hE₂, hid, h⟩
        have hE := hE₁.trans hE₂
        replace ha := ha.mono hE
        refine andThen_ready h (ha.push ha.describes
          (ha.fits.mono (.refl _) (List.suffix_cons _ _)) ?_) ⟨hpending, hcond⟩
          (harm.1.mono hE.counts)
        exact .condTestBound (hc.mono hE) (harm.2.mono hE.counts) (hlater.mono hE.counts)
          (hE₂.labels _ _ hnext) hid
    dsimp only
    cases hguard : arm.guard with
    | plain =>
      refine (newLabel_at h ⟨k, x.watch⟩).bind ?_
      rintro next s ⟨E₁, hE, hnext, h⟩
      replace ha := ha.mono hE
      refine andThen_ready h (ha.push ha.describes ha.fits ?_) ⟨hpending, hcond⟩
        (harm.1.mono hE.counts)
      exact .condTest (hc.mono hE) (harm.2.mono hE.counts) (hlater.mono hE.counts) hnext
    | «variable» n => exact bound n true
    | letName n => exact bound n false

theorem cond_ready (h : At L E y (.live ⟨k, x.watch⟩) s) (ha : Around L E y x k) (span : Span)
    {arms : List CondCase} (harms : CondCase.AllSound E.counts arms)
    (hotherwise : otherwise.Sound E.counts)
    (hparts : ∀ e ∈ otherwise :: CondCase.parts arms, L.Has e) :
    Runs c (cond span arms otherwise) s (Ready L) := by
  refine (newLabel_at h ⟨.value :: k, x.watch⟩).bind ?_
  rintro done s ⟨E₁, hE, hdone, h⟩
  refine (height_at h).bind ?_
  rintro _ _ ⟨rfl, rfl⟩
  have hc : CondScope.Fits E₁ x k ⟨span, otherwise, k.length, done⟩ :=
    ⟨hdone, rfl, hotherwise.mono hE.counts⟩
  exact condArms_ready h (ha.mono hE) hc (harms.mono hE.counts) hparts

theorem resumeCondTest_ready (h : At L E y (.live ⟨.value :: l, x.watch⟩) s)
    (ha : Around L E y x k) {arm : CondCase} {later : List CondCase} {next : Label}
    {bound : Option BindingId} (hw : (Waiting.condTest cs arm later next bound).Takes E x l x k)
    (hparts : ∀ e ∈ arm.body :: cs.otherwise :: CondCase.parts later, L.Has e) :
    Runs c (resumeCondTest cs arm later next bound) s (Ready L) := by
  obtain ⟨hbody, hlaterParts⟩ := List.forall_mem_cons.1 hparts
  unfold resumeCondTest
  cases hw with
  | condTest hc harm hlater hnext =>
    dsimp only
    rw [pure_bind]
    refine Runs.bind (jump_at h (.test l (.inl rfl)) hnext rfl (.refl _) rfl rfl nofun) fun _ s h => ?_
    exact andThen_ready h (ha.push ha.describes ha.fits (.condBody hc hlater hnext))
      ⟨hlaterParts, hbody⟩ harm
  | @condTestBound _ _ _ _ id _ _ hc harm hlater hnext hslot =>
    have hl : k <:+ .value :: k := List.suffix_cons _ _
    refine (binding_at h id).bind ?_
    rintro b _ ⟨rfl, -, -, hb⟩
    have hbslot : b.slot = k.length := by
      have := hb _ hslot
      unfold Binding.slot? at this
      split at this
      · cases this
      · exact Option.some.inj this
    have hkind : Layout.kindAt? (.value :: k) b.slot = some .value := by
      rw [hbslot]
      exact Layout.kindAt?_cons_length _ _
    refine Runs.bind (opCount_at h (.store _ ?_ hkind) rfl ?_ nofun) fun _ s h => ?_
    · cases b.isVariable
      · exact .inr (.inr (.inl rfl))
      · exact .inr (.inl rfl)
    · cases b.isVariable <;> rfl
    refine (markBound_at h id).bind fun _ s h => (current_at h).bind ?_
    rintro fn _ ⟨rfl, hfn, -⟩
    refine (declare_at h id).bind fun _ s h => ?_
    rw [pure_bind]
    refine Runs.bind (jump_at h (.test (.value :: k) (.inl rfl)) hnext
      rfl (.refl _) rfl rfl nofun) fun _ s h => ?_
    have hsep := (ha.describes.separate ha.fits.floor).mono (.refl E) hl
    have hsep' := hsep.cons hslot fun n hn => by
      cases hn
      exact ⟨rfl, Layout.kindAt?_cons_length _ _⟩
    rw [show fn.scope = x.scope from congrArg (·.scope) (ha.records hfn)]
    exact andThen_ready (x := (x.withNames (.value :: k) []).declaring [id]) h
      ⟨(ha.describes.withNames [] hsep).declare (hsep'.sees id List.mem_cons_self) hsep'.apart,
        (ha.fits.withNames hl []).declaring [id], x, k, .condBodyBound hc hlater hnext,
        ha.toInside⟩ ⟨hlaterParts, hbody⟩ harm

theorem resumeCondBody_ready {x' : Context} (h : At L E y (.live ⟨.value :: l, x'.watch⟩) s)
    (hx' : x'.Describes E y) (hin : Inside L E y.waiting x k) {arm : CondCase}
    {later : List CondCase} {next : Label} {scope : Option (List BindingId)}
    (hw : (Waiting.condBody cs arm later next scope).Takes E x' l x k)
    (hparts : ∀ e ∈ cs.otherwise :: CondCase.parts later, L.Has e) :
    Runs c (resumeCondBody cs arm later next scope) s (Ready L) := by
  refine (spanOf_runs arm.body).bind ?_
  rintro span _ rfl
  cases hw with
  | condBody hc hlater hnext =>
    refine Runs.bind (goto_at h hc.done) fun _ s h => ?_
    refine Runs.bind (bindLabel_dead h hnext hc.depth) fun _ s h => ?_
    exact condArms_ready h ⟨hin, hx'⟩ hc hlater hparts
  | condBodyBound hc hlater hnext =>
    refine Runs.bind (opCount_at h (.leave 1 k rfl rfl) rfl rfl nofun) fun _ s h => ?_
    refine Runs.bind (modifyCurrent_at ({ · with scope := x.scope }) h fun _ => rfl) fun _ s h => ?_
    refine Runs.bind (goto_at h hc.done) fun _ s h => ?_
    refine Runs.bind (bindLabel_dead h hnext (by simp [hc.depth])) fun _ s h => ?_
    refine Runs.bind (op_at h (.pop _ rfl) rfl rfl nofun) fun _ s h => ?_
    exact condArms_ready h ⟨hin, hx'.ofNames⟩ hc hlater hparts

/-! ### Loops -/

theorem loop_ready (h : At L E y (.live ⟨k, x.watch⟩) s) (ha : Around L E y x k) (span : Span)
    {body : Expr} (hbody : body.Sound E.counts) (hpart : L.Has body) :
    Runs c (loop span body) s (Ready L) := by
  refine (newLabel_at h ⟨.value :: k, x.watch⟩).bind ?_
  rintro exit s ⟨E₁, hE₁, hexit, h⟩
  refine (newLabel_at h ⟨k, x.watch⟩).bind ?_
  rintro next s ⟨E₂, hE₂, hnext, h⟩
  replace hexit := hE₂.labels _ _ hexit
  have hE := hE₁.trans hE₂
  replace ha := ha.mono hE
  refine (current_at h).bind ?_
  rintro fn _ ⟨rfl, hfn, htyped, -⟩
  have htop : fn.top = k.length := htyped.height.1
  have hguards : fn.guards = x.guards := congrArg (·.guards) (ha.records hfn)
  refine Runs.bind (bindLabel_live h hnext (.refl _) htop) fun _ s h => ?_
  have hloop : LoopScope.Surrounds E₂ k ⟨exit, next, fn.top, fn.top, fn.guards.head?⟩ := by
    rw [hguards]
    exact ⟨⟨k, hexit, htop, List.suffix_refl k⟩, ⟨k, hnext, htop, List.suffix_refl k⟩,
      fun p hp => ha.fits.guards p (List.mem_of_mem_head? hp)⟩
  refine Runs.bind (modifyCurrent_at (fun y => { y with loops := _ :: y.loops }) h fun _ => rfl)
    fun _ s h => ?_
  exact andThen_ready (x := x.inLoop _) h ⟨ha.describes.inLoop _, ha.fits.inLoop hloop, x, k,
    .loopBody hexit hnext htop, ha.toInside⟩ ⟨nofun, hpart⟩ (hbody.mono hE.counts)

theorem resumeLoopBody_ready {loop : LoopScope}
    (h : At L E y (.live ⟨.value :: k, x.watch⟩) s) (hx : (x.inLoop loop).Describes E y)
    (hin : Inside L E y.waiting x k) (span : Span)
    (hexit : x.EndsAt E k loop.exit) (hnext : E.labels[loop.next]? = some ⟨k, x.watch⟩)
    (hdepth : loop.exitDepth = k.length) : Runs c (resumeLoopBody span loop) s (Ready L) := by
  refine Runs.bind (op_at h (.pop _ rfl) rfl rfl nofun) fun _ s h => ?_
  refine Runs.bind (goto_at h hnext) fun _ s h => ?_
  refine Runs.bind (modifyCurrent_at (fun y => { y with loops := y.loops.drop 1 }) h
    fun _ => rfl) fun _ s h => ?_
  exact bindDone_ready h ⟨hin, hx.ofLoop⟩ nofun hexit (by rw [hdepth])

theorem nextRound_ready (h : At L E y (.live ⟨k, x.watch⟩) s) (ha : Around L E y x k) (span : Span) :
    Runs c (nextRound span) s (Ready L) := by
  refine (current_at h).bind ?_
  rintro fn _ ⟨rfl, hfn, -⟩
  split
  · exact .throw
  rename_i loop loops hloops
  have hloop := ha.surrounds hfn hloops
  have leave : ∀ {s : CompileState}, At L E y (.live ⟨k, Protected.watchOf loop.active⟩) s →
      Runs c (do
        let d ← height
        jump span.first .goto loop.next (d - loop.nextDepth)
        setHeight (d + 1)
        return .give .nil) s (Ready L) := by
    intro s h
    obtain ⟨m, hlabel, hdepth, top, rfl⟩ := hloop.next
    refine (height_at h).bind ?_
    rintro _ _ ⟨rfl, rfl⟩
    refine Runs.bind (jump_behind h (.goto top m rfl (by simp [hdepth])) hlabel
      rfl (.refl _) rfl nofun) fun _ s h => ?_
    refine (setHeight_at h _).bind fun _ s h => ?_
    exact give_ready (h.revive (by simp) (by simp)) ha
  refine (isActive_at h ha.describes loop.active).bind ?_
  rintro b _ ⟨rfl, hb⟩
  refine .ite (fun _ => ?_) fun hactive => ?_
  · exact (activate_at h loop.active hloop.active).bind fun _ _ h => leave h
  · rw [hb (by simpa using hactive)] at h
    exact leave h

theorem exitTest_ready (h : At L E y (.live ⟨k, x.watch⟩) s) (ha : Around L E y x k) (span : Span)
    (test : ExitTest) {cond value : Expr} (hcond : cond.Sound E.counts)
    (hvalue : value.Sound E.counts) (hparts : ∀ e ∈ [cond, value], L.Has e) :
    Runs c (exitTest span test cond value) s (Ready L) := by
  refine (current_at h).bind ?_
  rintro fn _ ⟨rfl, hfn, -⟩
  split
  · exact .throw
  · rename_i loop loops hloops
    obtain ⟨hcondPart, hvaluePart⟩ := List.forall_mem_cons.1 hparts
    exact andThen_ready h (ha.push ha.describes ha.fits
      (.exitCond (ha.surrounds hfn hloops) hvalue)) ⟨hvaluePart, hcondPart⟩ hcond

theorem endExitTest_ready (h : At L E y (.live ⟨.value :: k, x.watch⟩) s) (ha : Around L E y x k)
    (span : Span) {loop : LoopScope} (hloop : loop.Surrounds E k) {stay : Label}
    (hstay : E.labels[stay]? = some ⟨k, x.watch⟩) :
    Runs c (endExitTest span loop stay) s (Ready L) := by
  refine (exitLoop_at h ha.describes hloop _).bind fun _ s h => ?_
  refine (height_dead h).bind ?_
  rintro _ _ ⟨rfl, rfl⟩
  refine Runs.bind (bindLabel_dead h hstay (by simp)) fun _ s h => ?_
  exact Runs.bind (op_at h (.push k (.inl rfl)) rfl rfl nofun) fun _ _ h =>
    give_ready h ha

theorem resumeExitCond_ready (h : At L E y (.live ⟨.value :: k, x.watch⟩) s) (ha : Around L E y x k)
    (span : Span) (test : ExitTest) {value : Expr} (hvalue : value.Sound E.counts)
    (hpart : L.Has value) {loop : LoopScope} (hloop : loop.Surrounds E k) :
    Runs c (resumeExitCond span test value loop) s (Ready L) := by
  refine (newLabel_at h ⟨k, x.watch⟩).bind ?_
  rintro stay s ⟨E₁, hE, hstay, h⟩
  replace ha := ha.mono hE
  replace hloop := hloop.mono hE (List.suffix_refl k)
  refine Runs.bind (jump_at h (.test k ?_) hstay rfl (.refl _) rfl ?_ nofun)
    fun _ s h => .ite (fun _ => ?_) fun _ => ?_
  · cases test
    · exact .inr rfl
    · exact .inl rfl
  · cases test <;> rfl
  · exact Runs.bind (op_at h (.push k (.inl rfl)) rfl rfl nofun) fun _ _ h =>
      endExitTest_ready h ha span hloop hstay
  · exact andThen_ready h (ha.push ha.describes ha.fits (.exitValue hloop hstay)) ⟨nofun, hpart⟩
      (hvalue.mono hE.counts)

/-! ### Loops over sequences -/

theorem declareLoopNames_at (slot : Int) (hd : Declares L E y x slot cur s) (ds : List Decl)
    (hslots : ∀ n : Int, slot ≤ n → n < slot + ds.length → x.floor.kindAt? n = some .value) :
    Runs c (declareLoopNames slot ds) s fun _ s' => Declares L E y x (slot + ds.length) cur s' := by
  induction ds generalizing s slot with
  | nil => exact .pure (by simpa using hd)
  | cons d ds ih =>
    unfold declareLoopNames
    rw [← bind_assoc, show slot + ((d :: ds).length : Int) = slot + 1 + ds.length by simp; omega]
    refine (declareNew_at hd ⟨rfl, rfl⟩ rfl
      (hslots slot (Int.le_refl _) (by simp only [List.length_cons]; omega))).bind fun _ s hd => ?_
    refine ih (slot + 1) hd fun n hn hlt => hslots n (by omega) ?_
    rw [List.length_cons]
    omega

theorem endFor_ready (h : At L E y (.live ⟨.value :: k, x.watch⟩) s) (ha : Around L E y x k)
    (hexit : x.EndsAt E k f.loop.exit) (hdepth : f.depth = k.length) :
    Runs c (endFor f) s (Ready L) :=
  bindDone_ready h ha (by rintro _ ⟨⟩; rfl) hexit (by rw [hdepth])

theorem forNames_ready {names : List Decl} {height first : Int} {body : Expr}
    (hd : Declares L E y (x.withNames (Layout.values f.slots ++ .iterator :: k) []) height
      (.live ⟨Layout.values f.slots ++ .iterator :: k, x.watch⟩) s) (hheight : height ≤ first)
    (ha : Around L E y x k) (hf : f.Fits E x k) (hloop : f.loop.Surrounds E (.iterator :: k))
    (hbody : body.Sound E.counts) (hparts : ∀ e ∈ [body, f.otherwise], L.Has e)
    (hfirst : (k.length : Int) + 1 ≤ first)
    (hlast : first + names.length ≤ k.length + 1 + f.slots) :
    Runs c (do
      declareLoopNames first names
      modifyCurrent fun fn => { fn with loops := f.loop :: fn.loops }
      andThen body (.forBody f)) s (Ready L) := by
  obtain ⟨E₁, y₁, added, hE, h, hx, hy, hbelow⟩ := hd
  refine (declareLoopNames_at first ⟨E₁, y₁, added, hE, h, hx, hy, fun a ha m hm =>
    Int.lt_of_lt_of_le (hbelow a ha m hm) hheight⟩ names fun n hn hlt => ?_).bind ?_
  · exact Layout.kindAt?_values_append (by simp only [List.length_cons]; omega)
      (by simp only [List.length_cons]; omega)
  rintro _ s ⟨E₂, y₂, added, hE, h, hx, hy, -⟩
  refine Runs.bind (modifyCurrent_at (fun y => { y with loops := f.loop :: y.loops }) h
    fun _ => rfl) fun _ s h => ?_
  have hsuf : k <:+ Layout.values f.slots ++ .iterator :: k :=
    (List.suffix_cons _ _).trans (List.suffix_append _ _)
  obtain ⟨hbodyPart, hotherwise⟩ := List.forall_mem_cons.1 hparts
  exact andThen_ready (x := ((x.withNames _ []).declaring added).inLoop f.loop) h
    ⟨hx.inLoop _, (((ha.mono hE).fits.withNames hsuf []).declaring added).inLoop
      (hloop.mono hE (List.suffix_append _ _)), x, k, .forBody (hf.mono hE),
      hy ▸ ha.toInside.mono hE⟩ ⟨hotherwise, hbodyPart⟩ (hbody.mono hE.counts)

/-- An element is taken apart if the loop has several names. -/
theorem unpackElement_ready {m line : Nat} {names : List Decl} {unpack : Bool} {next : Compiling Next}
    (h : At L E y (.live ⟨.value :: (Layout.values m ++ .iterator :: k), x.watch⟩) s)
    (ha : Around L E y x k) (hnames : unpack = false → names.length = 1)
    (hnext : ∀ {s : CompileState},
      At L E y (.live ⟨Layout.values (names.length + m) ++ .iterator :: k, x.watch⟩) s →
      Runs c next s (Ready L)) :
    Runs c (if unpack then do opCount line .unpack names.length; next else next) s (Ready L) := by
  have hsuf : k <:+ Layout.values m ++ .iterator :: k :=
    (List.suffix_cons _ _).trans (List.suffix_append _ _)
  refine .ite (fun _ => ?_) fun hfalse => hnext ?_
  · refine Runs.bind (opCount_at h (.unpack _ _ rfl rfl) rfl rfl (ha.catches hsuf))
      fun _ s h => hnext ?_
    rwa [Layout.values_append_values] at h
  · rwa [hnames (by simpa using hfalse), Nat.add_comm]

/-- The names of a round get their slots above the iterator. -/
theorem declares_element {n : Nat}
    (h : At L E y (.live ⟨Layout.values n ++ .iterator :: k, x.watch⟩) s) (ha : Around L E y x k) :
    Declares L E y (x.withNames (Layout.values n ++ .iterator :: k) [])
      ((SlotKind.iterator :: k).length : Nat) (.live ⟨Layout.values n ++ .iterator :: k, x.watch⟩) s :=
  have hsep := ha.describes.separate (ha.floor_suffix (List.suffix_cons .iterator k))
  ⟨_, _, [], .refl _, h, ha.describes.withNames [] (hsep.mono (.refl _) (List.suffix_append _ _)),
    rfl, hsep.below⟩

theorem resumeForSequence_ready (h : At L E y (.live ⟨.value :: k, x.watch⟩) s)
    (ha : Around L E y x k) (span : Span) (key : Option Decl) {names : List Decl} {unpack : Bool}
    (hnames : unpack = false → names.length = 1) {body : Expr} (hbody : body.Sound E.counts)
    (hotherwise : otherwise.Sound E.counts) (hparts : ∀ e ∈ [body, otherwise], L.Has e) :
    Runs c (resumeForSequence span key names unpack body otherwise) s (Ready L) := by
  refine (height_at h).bind ?_
  rintro _ _ ⟨rfl, rfl⟩
  have hdepth : ((SlotKind.value :: k).length : Int) - 1 = k.length := by simp
  dsimp only
  rw [hdepth]
  refine (newLabel_at h ⟨k, x.watch⟩).bind ?_
  rintro ended s ⟨E₁, hE₁, hended, h⟩
  refine Runs.bind (jump_at h (.iterate k rfl) hended rfl (.refl _) rfl rfl
    ((ha.mono hE₁).catches (List.suffix_refl k))) fun _ s h => ?_
  refine (newLabel_at h ⟨.value :: k, x.watch⟩).bind ?_
  rintro exit s ⟨E₂, hE₂, hexit, h⟩
  refine (newLabel_at h ⟨.iterator :: k, x.watch⟩).bind ?_
  rintro next s ⟨E₃, hE₃, hnext, h⟩
  refine (current_at h).bind ?_
  rintro fn _ ⟨rfl, hfn, -⟩
  refine (newLabel_at h ⟨.iterator :: k, x.watch⟩).bind ?_
  rintro start s ⟨E₄, hE₄, hstart, h⟩
  refine Runs.bind (bindLabel_live h hstart (.refl _) (by simp)) fun _ s h => ?_
  refine (height_at h).bind ?_
  rintro _ _ ⟨rfl, rfl⟩
  -- all labels are made before the first name of the loop
  have hE := ((hE₁.trans hE₂).trans hE₃).trans hE₄
  replace hended := hE₄.labels _ _ (hE₃.labels _ _ (hE₂.labels _ _ hended))
  replace hexit := hE₄.labels _ _ (hE₃.labels _ _ hexit)
  replace hnext := hE₄.labels _ _ hnext
  replace ha := ha.mono hE
  have hguards : fn.guards = x.guards := congrArg (·.guards) (ha.records hfn)
  have hscope : fn.scope = x.scope := congrArg (·.scope) (ha.records hfn)
  have hiter : ∀ n, (Layout.values n ++ .iterator :: k).kindAt? k.length = some .iterator :=
    fun n => Layout.kindAt?_of_suffix (List.suffix_append _ _) (Layout.kindAt?_cons_length _ _)
  have hloop : LoopScope.Surrounds E₄ (.iterator :: k)
      ⟨exit, next, k.length, k.length + 1, fn.guards.head?⟩ := by
    rw [hguards]
    exact ⟨⟨k, hexit, rfl, List.suffix_cons _ _⟩, ⟨_, hnext, by simp, List.suffix_refl _⟩,
      fun p hp => (ha.fits.guards p (List.mem_of_mem_head? hp)).mono (.refl _)
        (List.suffix_cons _ _)⟩
  have hf : ∀ n, ForScope.Fits E₄ x k ⟨span, body, otherwise, k.length,
      ⟨exit, next, k.length, k.length + 1, fn.guards.head?⟩, start, ended, fn.scope, n⟩ := by
    rw [hscope]
    exact fun n => ⟨hexit, hnext, hstart, hended, rfl, rfl, hotherwise.mono hE.counts⟩
  replace hbody := hbody.mono hE.counts
  cases key with
  | none =>
    refine .ite (fun hkey => absurd hkey (by simp)) fun _ => ?_
    refine Runs.bind (opCount_at h (.element _ (.inr rfl) (hiter 0)) rfl rfl nofun)
      fun _ s h => ?_
    refine unpackElement_ready (m := 0) h ha hnames fun h => ?_
    refine (height_at h).bind ?_
    rintro _ _ ⟨rfl, rfl⟩
    refine forNames_ready (declares_element h ha) ?_ ha (hf _) hloop hbody hparts ?_ ?_
    · simp only [List.length_append, List.length_cons, Layout.length_values]
      omega
    · simp only [List.length_append, List.length_cons, Layout.length_values]
      omega
    · simp only [List.length_append, List.length_cons, Layout.length_values]
      omega
  | some d =>
    refine .ite (fun _ => ?_) fun hkey => absurd rfl hkey
    refine Runs.bind (opCount_at h (.element _ (.inl rfl) (hiter 0)) rfl rfl nofun)
      fun _ s h => ?_
    refine Runs.bind (opCount_at h (.element _ (.inr rfl) (hiter 1)) rfl rfl nofun)
      fun _ s h => ?_
    refine unpackElement_ready (m := 1) h ha hnames fun h => ?_
    refine (height_at h).bind ?_
    rintro _ _ ⟨rfl, rfl⟩
    refine (declareLoopNames_at _ (declares_element h ha) [d] fun n hn hlt => ?_).bind fun _ s hd => ?_
    · exact Layout.kindAt?_values_append (by simpa using hn) (by simp at hlt ⊢; omega)
    refine forNames_ready hd ?_ ha (hf _) hloop hbody hparts ?_ ?_
    · simp only [List.length_append, List.length_cons, List.length_nil, Layout.length_values]
      omega
    · simp only [List.length_append, List.length_cons, Layout.length_values]
      omega
    · simp only [List.length_append, List.length_cons, Layout.length_values,
        Option.isSome_some, if_true]
      omega

theorem resumeForBody_ready
    (h : At L E y (.live ⟨.value :: (Layout.values f.slots ++ .iterator :: k), x.watch⟩) s)
    {ids : List BindingId}
    (hx : (((x.withNames (Layout.values f.slots ++ .iterator :: k) []).declaring
      ids).inLoop f.loop).Describes E y) (hin : Inside L E y.waiting x k) (hf : f.Fits E x k)
      (hpart : L.Has f.otherwise) :
    Runs c (resumeForBody f) s (Ready L) := by
  have hdepth : f.depth = k.length := hf.depth
  refine Runs.bind (op_at h (.pop _ rfl) rfl rfl nofun) fun _ s h => ?_
  refine Runs.bind (modifyCurrent_at
    (fun y => { y with loops := y.loops.drop 1, scope := f.scope }) h
    fun _ => rfl) fun _ s h => ?_
  have ha : Around L E { y with loops := y.loops.drop 1, scope := f.scope } x k :=
    ⟨hin, hf.scope ▸ hx.ofLoop.ofNames⟩
  -- the names of the loop are dropped if there are any, and both ways meet at the next round
  have finish : ∀ {s : CompileState} {cur : Cursor},
      At L E { y with loops := y.loops.drop 1, scope := f.scope } cur s →
      (∀ p, cur = .live p → p.Enters ⟨.iterator :: k, x.watch⟩) →
      Runs c (do
        bindLabel f.loop.next (f.depth + 1)
        jump ((f.body.span?.getD f.span).last) .advance f.ended 0
        jump ((f.body.span?.getD f.span).last) .jump f.start 0
        bindLabel f.ended f.depth
        if f.otherwise.isAbsent then
          op f.span.last .nil
          endFor f
        else andThen f.otherwise (.forElse f)) s (Ready L) := by
    intro s cur h hcur
    refine Runs.bind (bindLabel_at h hf.next hcur (by simp [hdepth])) fun _ s h => ?_
    refine Runs.bind (jump_at h (.advance k rfl) hf.ended rfl (.refl _) rfl rfl nofun) fun _ s h => ?_
    refine Runs.bind (goto_at h hf.start) fun _ s h => ?_
    refine Runs.bind (bindLabel_dead h hf.ended hdepth) fun _ s h => ?_
    refine .ite (fun _ => ?_) fun _ => ?_
    · exact Runs.bind (op_at h (.push k (.inl rfl)) rfl rfl nofun) fun _ _ h =>
        endFor_ready h ha hf.exit hdepth
    · exact andThen_ready h (ha.push ha.describes ha.fits (.forElse hf.exit hdepth))
        ⟨nofun, hpart⟩ hf.otherwise
  refine .ite (fun _ => ?_) fun hslots => ?_
  · exact Runs.bind (jump_behind h (.goto _ _ rfl (by simp)) hf.next rfl (.refl _) rfl nofun)
      fun _ s h => finish h nofun
  · rw [show f.slots = 0 by omega] at h
    exact finish h (by rintro _ ⟨⟩; exact .refl _)

/-! ### Choices by number -/

theorem endSwitch_ready (h : At L E y (.live ⟨.value :: k, x.watch⟩) s) (ha : Around L E y x k)
    (hs : sw.Fits E x k) : Runs c (endSwitch sw) s (Ready L) :=
  bindDone_ready h ha (by rintro _ ⟨⟩; rfl) hs.done (by rw [hs.depth])

theorem switchCases_ready {reached : Nat} {top : Int} (h : At L E y (.dead reached top) s)
    (ha : Around L E y x k) (hs : sw.Fits E x k) (harms : Expr.AllSound E.counts arms)
    {labels : List Label} (hlabels : ∀ t ∈ labels, E.labels[t]? = some ⟨k, x.watch⟩)
    (hparts : ∀ e ∈ sw.otherwise :: arms, L.Has e) :
    Runs c (switchCases sw arms labels) s (Ready L) := by
  have hdepth : sw.depth = k.length := hs.depth
  unfold switchCases
  split
  · rename_i arm later t labels
    refine Runs.bind (bindLabel_dead h (hlabels t List.mem_cons_self) hdepth) fun _ s h => ?_
    refine (spanOf_runs arm).bind ?_
    rintro span _ rfl
    obtain ⟨hotherwise, hrest⟩ := List.forall_mem_cons.1 hparts
    obtain ⟨harm, hlater⟩ := List.forall_mem_cons.1 hrest
    exact andThen_ready h (ha.push ha.describes ha.fits (.switchCase hs harms.2
      fun t ht => hlabels t (List.mem_cons_of_mem _ ht)))
      ⟨List.forall_mem_cons.2 ⟨hotherwise, hlater⟩, harm⟩ harms.1
  · rename_i t labels _
    refine Runs.bind (bindLabel_dead h (hlabels t List.mem_cons_self) hdepth) fun _ s h => ?_
    refine .ite (fun _ => ?_) fun _ => ?_
    · exact Runs.bind (op_at h (.push k (.inl rfl)) rfl rfl nofun) fun _ _ h =>
        endSwitch_ready h ha hs
    · exact andThen_ready h (ha.push ha.describes ha.fits (.switchElse hs))
        ⟨nofun, hparts _ List.mem_cons_self⟩ hs.otherwise
  · exact .throw

theorem resumeSwitchSubject_ready (h : At L E y (.live ⟨.value :: k, x.watch⟩) s)
    (ha : Around L E y x k) (span : Span) (harms : Expr.AllSound E.counts arms)
    (hotherwise : otherwise.Sound E.counts) (hparts : ∀ e ∈ otherwise :: arms, L.Has e) :
    Runs c (resumeSwitchSubject span arms otherwise) s (Ready L) := by
  refine (newLabels_at h ⟨k, x.watch⟩ _).bind ?_
  rintro labels s ⟨hlength, E₁, hE₁, h, hlabels⟩
  refine (switch_at h (List.ne_nil_of_length_eq_add_one hlength) hlabels).bind fun _ s h => ?_
  refine (height_dead h).bind ?_
  rintro _ _ ⟨rfl, rfl⟩
  refine (newLabel_at h ⟨.value :: k, x.watch⟩).bind ?_
  rintro done s ⟨E₂, hE₂, hdone, h⟩
  have hE := hE₁.trans hE₂
  have hs : SwitchScope.Fits E₂ x k ⟨span, otherwise, k.length, done⟩ :=
    ⟨hdone, rfl, hotherwise.mono hE.counts⟩
  exact switchCases_ready h (ha.mono hE) hs (harms.mono hE.counts)
    (fun t ht => hE₂.labels _ _ (hlabels t ht)) hparts

theorem resumeSwitchCase_ready (h : At L E y (.live ⟨.value :: k, x.watch⟩) s)
    (ha : Around L E y x k) (hs : sw.Fits E x k) (line : Nat)
    (harms : Expr.AllSound E.counts arms) {labels : List Label}
    (hlabels : ∀ t ∈ labels, E.labels[t]? = some ⟨k, x.watch⟩)
    (hparts : ∀ e ∈ sw.otherwise :: arms, L.Has e) :
    Runs c (resumeSwitchCase sw line arms labels) s (Ready L) :=
  Runs.bind (goto_at h hs.done) fun _ _ h => switchCases_ready h ha hs harms hlabels hparts

/-! ### Choices by tests -/

theorem endSelect_ready (h : At L E y (.live ⟨.value :: .value :: k, x.watch⟩) s)
    (ha : Around L E y x k) (hs : sel.Fits E x k) : Runs c (endSelect sel) s (Ready L) :=
  Runs.bind (opCount_at h (.leave 1 k rfl rfl) rfl rfl nofun) fun _ _ h =>
    bindDone_ready h ha (by rintro _ ⟨⟩; rfl) hs.done (by rw [hs.slot])

/-- The tests of an alternative leave the subject where it is. -/
theorem selectValues_ready (h : At L E y (.live ⟨.value :: k, x.watch⟩) s) (ha : Around L E y x k)
    (hc : cl.Fits E x k) {values : List Expr} (hvalues : Expr.AllSound E.counts values)
    (hparts : ∀ e ∈ values ++ (Waiting.selectBody cl).pending, L.Has e)
    (hbody : L.Has cl.clause.body) : Runs c (selectValues cl values) s (Ready L) := by
  have hslot : cl.select.slot = k.length := hc.select.slot
  have hsuf : k <:+ .value :: k := List.suffix_cons _ _
  unfold selectValues
  cases values with
  | nil =>
    refine Runs.bind (goto_at h hc.next) fun _ s h => ?_
    refine Runs.bind (bindLabel_dead h hc.body (by simp [hslot])) fun _ s h => ?_
    exact andThen_ready h (ha.push ha.describes (ha.fits.mono (.refl E) hsuf) (.selectBody hc))
      ⟨hparts, hbody⟩ hc.expr
  | cons e rest =>
    refine Runs.bind (opCount_at h (.load _ (.inl rfl) ?_) rfl rfl nofun) fun _ s h => ?_
    · rw [hslot]
      exact Layout.kindAt?_cons_length _ _
    · obtain ⟨he, hmore⟩ := List.forall_mem_cons.1 hparts
      obtain ⟨hrest, hlater⟩ := List.forall_mem_append.1 hmore
      exact andThen_ready h (ha.push ha.describes
        (ha.fits.mono (.refl E) (hsuf.trans (List.suffix_cons _ _)))
        (.selectValue hc hvalues.2))
        ⟨List.forall_mem_append.2 ⟨hrest, List.forall_mem_cons.2 ⟨hbody, hlater⟩⟩, he⟩ hvalues.1

theorem selectClauses_ready (h : At L E y (.live ⟨.value :: k, x.watch⟩) s)
    (ha : Around L E y x k) (hs : sel.Fits E x k)
    (hclauses : SelectClause.AllSound E.counts clauses)
    (hparts : ∀ e ∈ sel.otherwise :: SelectClause.parts clauses, L.Has e) :
    Runs c (selectClauses sel clauses) s (Ready L) := by
  unfold selectClauses
  cases clauses with
  | nil =>
    refine .ite (fun _ => ?_) fun _ => ?_
    · exact Runs.bind (op_at h (.push _ (.inl rfl)) rfl rfl nofun) fun _ _ h =>
        endSelect_ready h ha hs
    · exact andThen_ready h (ha.push ha.describes
        (ha.fits.mono (.refl E) (List.suffix_cons _ _)) (.selectElse hs))
        ⟨nofun, hparts _ List.mem_cons_self⟩ hs.otherwise
  | cons clause later =>
    refine (newLabel_at h ⟨.value :: k, x.watch⟩).bind ?_
    rintro body s ⟨E₁, hE₁, hbody, h⟩
    refine (newLabel_at h ⟨.value :: k, x.watch⟩).bind ?_
    rintro next s ⟨E₂, hE₂, hnext, h⟩
    have hE := hE₁.trans hE₂
    have hall := SelectClause.allSound_iff.1 (hclauses.mono hE.counts)
    have hclause := hall clause List.mem_cons_self
    have hc : ClauseScope.Fits E₂ x k ⟨sel, clause, later, body, next⟩ :=
      ⟨hs.mono hE, hE₂.labels _ _ hbody, hnext, hclause.2,
        SelectClause.allSound_iff.2 fun a ha => hall a (List.mem_cons_of_mem _ ha)⟩
    obtain ⟨hotherwise, hcl⟩ := List.forall_mem_cons.1 hparts
    obtain ⟨hbodyPart, hrest⟩ := List.forall_mem_cons.1 hcl
    obtain ⟨hvaluesParts, hlater⟩ := List.forall_mem_append.1 hrest
    exact selectValues_ready h (ha.mono hE) hc hclause.1
      (List.forall_mem_append.2 ⟨hvaluesParts, List.forall_mem_cons.2 ⟨hotherwise, hlater⟩⟩) hbodyPart

theorem select_ready (h : At L E y (.live ⟨k, x.watch⟩) s) (ha : Around L E y x k) (span : Span)
    {subject : Expr} (hsubject : subject.Sound E.counts)
    (hclauses : SelectClause.AllSound E.counts clauses) (hotherwise : otherwise.Sound E.counts)
    (hparts : ∀ e ∈ subject :: otherwise :: SelectClause.parts clauses, L.Has e) :
    Runs c (select span subject clauses otherwise) s (Ready L) := by
  refine (height_at h).bind ?_
  rintro _ _ ⟨rfl, rfl⟩
  refine (newLabel_at h ⟨.value :: k, x.watch⟩).bind ?_
  rintro done s ⟨E₁, hE, hdone, h⟩
  refine Runs.bind (emit_at h (.enter k rfl) rfl rfl (.plain rfl rfl) nofun)
    fun _ s h => ?_
  have hs : SelectScope.Fits E₁ x k ⟨span, otherwise, k.length, done⟩ :=
    ⟨hdone, rfl, hotherwise.mono hE.counts⟩
  replace ha := ha.mono hE
  obtain ⟨hpart, hrest⟩ := List.forall_mem_cons.1 hparts
  exact andThen_ready h (ha.push ha.describes (ha.fits.mono (.refl _) (List.suffix_cons _ _))
    (.selectSubject hs (hclauses.mono hE.counts))) ⟨hrest, hpart⟩ (hsubject.mono hE.counts)

theorem resumeSelectSubject_ready (h : At L E y (.live ⟨.value :: .value :: k, x.watch⟩) s)
    (ha : Around L E y x k) (hs : sel.Fits E x k)
    (hclauses : SelectClause.AllSound E.counts clauses)
    (hparts : ∀ e ∈ sel.otherwise :: SelectClause.parts clauses, L.Has e) :
    Runs c (resumeSelectSubject sel clauses) s (Ready L) := by
  have hslot : sel.slot = k.length := hs.slot
  refine Runs.bind (opCount_at h (.store _ (.inr (.inl rfl)) ?_) rfl rfl nofun)
    fun _ s h => ?_
  · rw [hslot]
    exact Layout.kindAt?_cons_length _ _
  · exact Runs.bind (op_at h (.pop _ rfl) rfl rfl nofun) fun _ _ h =>
      selectClauses_ready h ha hs hclauses hparts

theorem resumeSelectValue_ready
    (h : At L E y (.live ⟨.value :: .value :: .value :: k, x.watch⟩) s) (ha : Around L E y x k)
    (hc : cl.Fits E x k) {rest : List Expr} (hrest : Expr.AllSound E.counts rest)
    (hparts : ∀ e ∈ (Waiting.selectValue cl rest).pending, L.Has e) :
    Runs c (resumeSelectValue cl rest) s (Ready L) := by
  obtain ⟨hvalues, hmore⟩ := List.forall_mem_append.1 hparts
  obtain ⟨hbody, hlater⟩ := List.forall_mem_cons.1 hmore
  refine Runs.bind (emit_at h (.constCall 2 (.value :: k) rfl rfl) rfl rfl
    ⟨trivial, nofun, nofun⟩ (ha.catches (List.suffix_cons _ _))) fun _ s h => ?_
  exact Runs.bind (jump_at h (.test _ (.inr rfl)) hc.body rfl (.refl _) rfl rfl nofun) fun _ _ h =>
      selectValues_ready h ha hc hrest (List.forall_mem_append.2 ⟨hvalues, hlater⟩) hbody

theorem resumeSelectBody_ready (h : At L E y (.live ⟨.value :: .value :: k, x.watch⟩) s)
    (ha : Around L E y x k) (hc : cl.Fits E x k)
    (hparts : ∀ e ∈ (Waiting.selectBody cl).pending, L.Has e) :
    Runs c (resumeSelectBody cl) s (Ready L) := by
  have hslot : cl.select.slot = k.length := hc.select.slot
  refine Runs.bind (opCount_at h (.leave 1 k rfl rfl) rfl rfl nofun) fun _ s h => ?_
  refine Runs.bind (goto_at h hc.select.done) fun _ s h => ?_
  exact Runs.bind (bindLabel_dead h hc.next (by simp [hslot])) fun _ _ h =>
    selectClauses_ready h ha hc.select hc.later hparts

end Compiling

end StagedScript
