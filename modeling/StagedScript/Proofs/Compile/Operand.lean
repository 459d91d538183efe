import StagedScript.Proofs.Compile.Ready

/-!
# Operands, functions and calls

The operands of an expression lie on the stack when the instruction that consumes them is emitted.
A function begins with its parameters on the stack, and when it ends its code is sound and the
function around it goes on with the closure.
-/

namespace StagedScript

variable {L : Log} {E E' : Env} {y : Nesting} {cur : Cursor} {s : CompileState} {c : Settings}
  {x : Context} {l k : Layout} {w : Watch Label}

/-- The compiler is at the same place with more names in scope, and all slots lie below a height. -/
def Declares (L : Log) (E : Env) (y : Nesting) (x : Context) (height : Int) (cur : Cursor)
    (s : CompileState) : Prop :=
  ∃ E' y' ids, E.Extends E' ∧ At L E' y' cur s ∧ (x.declaring ids).Describes E' y' ∧
    y'.waiting = y.waiting ∧ E'.Below height (NameLevel.known x.levels y'.scope y'.reserved)

namespace Compiling

theorem declareNew_at {n : Int} (hd : Declares L E y x n cur s) {b : Binding}
    (hb : b.value = .nil ∧ b.placeholder = none) (hslot : b.slot? = some n)
    (hn : x.floor.kindAt? n = some .value) :
    Runs c (do declare (← newBinding b)) s fun _ s' => Declares L E y x (n + 1) cur s' := by
  obtain ⟨E₁, y₁, ids, hE₁, h, hx, hy, hbelow⟩ := hd
  have hsound : b.Sound E₁.counts := ⟨by rw [hb.1]; trivial, by simp [hb.2]⟩
  refine (newBinding_at h hsound).bind ?_
  rintro id s' ⟨E₂, hE₂, hid, h⟩
  have hsep := Env.Separate.cons (.mono ⟨hx.sees, hx.apart, hbelow⟩ hE₂ (List.suffix_refl _)) hid
    fun m hm => by
      cases hslot.symm.trans hm
      exact ⟨rfl, hn⟩
  exact (declare_at h id).imp fun _ s' h => ⟨E₂, _, id :: ids, hE₁.trans hE₂, h,
    (hx.mono hE₂).declare (hsep.sees id List.mem_cons_self) hsep.apart, hy, hsep.below⟩

/-! ### Functions -/

theorem declareParams_at (slot : Nat) (hd : Declares L E y x slot cur s) (ps : List Param)
    (hslots : ∀ n : Nat, slot ≤ n → n < slot + ps.length → x.floor.kindAt? n = some .value) :
    Runs c (declareParams slot ps) s fun _ s' => ∃ n, Declares L E y x n cur s' := by
  induction ps generalizing s slot with
  | nil => exact .pure ⟨slot, hd⟩
  | cons p ps ih =>
    unfold declareParams
    rw [← bind_assoc]
    refine (declareNew_at hd ⟨rfl, rfl⟩ rfl (hslots slot le_rfl (by simp))).bind fun _ s hd => ?_
    refine ih (slot + 1) hd fun n hn hlt => hslots n (by omega) ?_
    rw [List.length_cons]
    omega

theorem declareNew_fresh {b : Binding} (hfresh : L.Fresh s) :
    Runs c (do declare (← newBinding b)) s fun _ s' => L.Fresh s' := by
  refine Runs.bind (P := fun _ s' => L.Fresh s') ?_ fun _ _ hfresh =>
    modifyCurrent_fresh hfresh fun _ => rfl
  rintro _ _ ⟨⟩
  exact hfresh

theorem declareParams_fresh (hfresh : L.Fresh s) (slot : Nat) (ps : List Param) :
    Runs c (declareParams slot ps) s fun _ s' => L.Fresh s' := by
  induction ps generalizing s slot with
  | nil => exact .pure hfresh
  | cons p ps ih =>
    unfold declareParams
    rw [← bind_assoc]
    exact (declareNew_fresh hfresh).bind fun _ _ hfresh => ih hfresh (slot + 1)

end Compiling

theorem orNil_sound {e : Expr} {z : CapturedCounts} (he : e.Sound z) (span : Span) :
    (e.orNil span).Sound z := by
  unfold Expr.orNil
  split
  · trivial
  · exact he

/-- A function without instructions is put in front of the one that awaits its code. -/
theorem At.begin {w : Waiting} (h : At L E { y with waiting := w :: y.waiting } (.live ⟨l, x.watch⟩) s)
    {x' : Context} (hin : Inside L E y.waiting x' k) (hx : x.Describes E y) (hw : w.Awaits x l x' k)
    (hl : x.Fits E l) (fn : FunctionState)
    {blockSize : Int} (hbuilder : fn.builder = .empty blockSize) (hupvalues : fn.upvalues = [])
    (hcaptured : fn.captured = []) {n : Nat} (hparams : fn.params.length = n) (htop : fn.top = n)
    (hsize : fn.size = n) (hy : fn.nesting = ⟨⟨[], [], [], none, []⟩, [], []⟩) (body : Expr)
    (span : Span) (pin : Pin) :
    ∃ new, L.Emits new ∧ At ((L.withMarks new).inner w y.toRecords body span pin)
      ⟨false, [], 0, E.slots, E.counts⟩ ⟨⟨[], [], [], none, []⟩, [], []⟩
      (.live ⟨Layout.values n, .off⟩)
      { s with functions := fn :: s.functions } := by
  subst hparams
  obtain ⟨fn', rest, hs, hy', htyped, hrest⟩ := h.functions
  obtain ⟨new, hnew, hlength, hmarks⟩ := htyped.exists_marks
  have hwaiting : fn'.waiting = w :: y.waiting := congrArg (·.waiting) hy'
  refine ⟨new, hnew, ⟨fn, fn' :: rest, by rw [hs], hy,
    .start hbuilder hupvalues htop hsize nofun rfl rfl, ?_⟩,
    ⟨h.bindings.slots, h.bindings.sound⟩, h.heap, h.counts⟩
  refine ⟨by rw [hupvalues, hcaptured]; rfl, ⟨?_, hlength.symm, congrArg (·.toRecords) hy'⟩, E, x, l,
    rfl, rfl, hmarks rfl htyped.bound (List.Subset.refl _), hl, ?_, ?_, by simp [hupvalues], hrest⟩
  · rw [hwaiting, hin.frames]
    rfl
  · rw [hy']
    exact hx.withWaiting _
  · exact ⟨w, y.waiting, x', k, hwaiting, hw, hin.fits, hin.resumes⟩

theorem At.withPins (h : At L E y cur s) (hcounts : L.Counts s) (pins : List Pin) :
    At { L with pins } E y cur s := by
  obtain ⟨fn, rest, hs, hy, htyped, hrest⟩ := h.functions
  obtain ⟨fn', rest', hs', hsize⟩ := hcounts
  cases hs.symm.trans hs'
  exact ⟨⟨fn, rest, hs, hy, htyped.relog hsize rfl rfl (List.Subset.refl _), hrest⟩, h.bindings,
    h.heap, h.counts⟩

namespace Compiling

/-- A function is begun while the one around it awaits its code. -/
theorem beginFunction_ready (h : At L E y (.live ⟨l, x.watch⟩) s) {x' : Context}
    (hin : Inside L E y.waiting x' k) (hx : x.Describes E y) {w : Waiting} (hw : w.Awaits x l x' k)
    (hl : x.Fits E l) (hkeeps : L.Keeps w) {body : Expr} (hbody : body.Sound E.counts) (span : Span)
    (params : List Param) (extra named isConstant : Bool) : Runs c (do
      push w
      beginFunction span params extra named body isConstant) s (Ready L) := by
  refine (push_at h w).bind fun _ s h => ?_
  unfold beginFunction
  rcases repeated? [] params with _ | ⟨p, line⟩
  case some => exact Runs.throw.bind (P := fun _ _ => False) nofun
  refine Runs.read.bind ?_
  rintro _ _ ⟨rfl, rfl⟩
  refine Runs.modify.bind ?_
  rintro _ _ rfl
  have hx₁ : (Context.ofParams params.length).Describes ⟨false, [], 0, E.slots, E.counts⟩
      ⟨⟨[], [], [], none, []⟩, [], []⟩ :=
    ⟨rfl, ⟨nofun, nofun, nofun, nofun⟩, nofun⟩
  let fn : FunctionState :=
    { builder := .empty c.blockSize, top := params.length, size := params.length,
      params := params.map (·.name),
      flags := (if extra then 1 else 0) ||| (if named then 2 else 0), isConstant }
  let pin ids : Pin := ⟨((Context.ofParams params.length).declaring ids).toRecords, []⟩
  obtain ⟨new, hnew, h₁⟩ := h.begin hin hx hw hl fn rfl rfl rfl (List.length_map _) rfl rfl rfl
    (body.orNil span) span (pin [])
  refine ((declareParams_at (x := Context.ofParams params.length) 0
    ⟨_, _, [], .refl _, h₁, hx₁, rfl, nofun⟩ params
    fun n _ hn => Layout.kindAt?_values (by omega)).and
    (declareParams_fresh (L := (L.withMarks new).inner w y.toRecords (body.orNil span) span (pin []))
      ⟨rfl, fn, _, rfl, rfl⟩ 0 params)).bind ?_
  rintro _ s' ⟨⟨-, E₂, y₂, ids, hE₂, h₂, hx₂, hy₂, -⟩, hfresh⟩
  refine Runs.bind (Runs.and (x := push (.finish span false)) (push_at h₂ _)
    (modifyCurrent_fresh hfresh fun _ => rfl)) ?_
  rintro _ s ⟨h₂, hfresh⟩
  refine .pure (.begin (x := (Context.ofParams params.length).declaring ids) rfl
    (h₂.withPins hfresh.2 [pin ids])
    ⟨⟨(Context.ofParams_fits E₂ _).declaring ids, ?_, ?_⟩, hx₂.withWaiting _⟩ hfresh hnew hkeeps
    (orNil_sound (hbody.mono hE₂.counts) span))
  · exact ⟨⟨_, rfl, rfl, nofun⟩, .inl ⟨span, by rw [hE₂.isRoot], hy₂, rfl⟩⟩
  · exact congrArg (_ :: ·) hy₂

theorem prepareCapture_at (h : At L E y (.live ⟨l, w⟩) s) (line : Nat) {source : Int}
    (hsource : l.CanCapture E.captures source) (id : BindingId) :
    Runs c (prepareCapture line source id) s fun _ s' => At L E y (.live ⟨l, w⟩) s' := by
  refine (binding_at h id).bind ?_
  rintro b _ ⟨rfl, -⟩
  refine .ite (fun _ => .pure h) fun hneg => ?_
  have hkind : l.kindAt? source = some .value := by
    simp only [Bool.or_eq_true, decide_eq_true_eq, not_or] at hneg
    exact hsource.1 (by omega)
  refine .ite (fun _ => ?_) fun _ => .ite (fun _ => ?_) fun _ => .pure h
  · refine Runs.bind (opCount_at h (.load l (.inr rfl) hkind) rfl rfl nofun)
      fun _ _ h => ?_
    exact op_at h (.pop l rfl) rfl rfl nofun
  · exact opCount_at h (.box l rfl hkind) rfl rfl nofun

theorem prepareCaptures_at (h : At L E y (.live ⟨l, w⟩) s) (line : Nat)
    {sources : List Int} (hsources : ∀ u ∈ sources, l.CanCapture E.captures u)
    (ids : List BindingId) :
    Runs c (prepareCaptures line sources ids) s fun _ s' => At L E y (.live ⟨l, w⟩) s' := by
  induction sources generalizing ids s with
  | nil => exact .pure h
  | cons source sources ih =>
    cases ids with
    | nil => exact .pure h
    | cons id ids =>
      exact (prepareCapture_at h line (hsources source List.mem_cons_self) id).bind fun _ _ h =>
        ih h (fun u hu => hsources u (List.mem_cons_of_mem _ hu)) ids

/-- A function ends with its value on the stack. Its code is sound, and the function around it goes
on. -/
theorem finishFunction_ready (h : At L E y (.live ⟨.value :: l, w⟩) s)
    (hfresh : L.Fresh s) (hlast : L.IsLast) (span : Span) :
    Runs c (finishFunction span E.isRoot) s (Ready L) := by
  unfold finishFunction
  refine Runs.bind ((emit_behind (i := .plain span.last .ret) h (.ret l rfl) rfl
    (.plain rfl rfl) nofun).and
    (op_size hfresh _ _)) ?_
  rintro _ s ⟨h, fn, rest, hs, hsize⟩
  refine (current_at h).bind ?_
  rintro fn' _ ⟨rfl, rfl, htyped, rest', hs', hrest⟩
  cases hs.symm.trans hs'
  split
  · exact .throw
  · rename_i code hfinish
    let result : Func :=
      { source := span.source, startLine := span.first, endLine := span.last, entry := 0,
        frameSize := max fn.size fn.params.length, numParams := fn.params.length,
        flags := fn.flags, params := fn.params, decls := fn.decls, upvalues := fn.upvalues,
        code := some code }
    have hmakes : fn.Makes code result := ⟨rfl, rfl, rfl, rfl, rfl, rfl⟩
    have hsound := htyped.finish hfinish hmakes
    obtain ⟨new, hnew, hlength, hmarked⟩ := htyped.finish_marked hfinish hmakes
    have hone := hlength.trans hsize
    refine .ite (fun hroot => .pure ?_) fun hroot => ?_
    · exact .done h hnew hlast ⟨fn, rest, hs, hlength.symm⟩ hmarked hsound (htyped.root hroot)
    refine Runs.modify.bind ?_
    rintro _ _ rfl
    -- the function around takes the place of the finished one, with the slots and counts it has now
    cases houter : L.outer with
    | nil =>
      rw [houter] at hrest
      cases rest with
      | nil => exact absurd hrest.1 hroot
      | cons fn' rest => exact hrest.elim
    | cons o outer =>
      rw [houter] at hrest
      cases rest with
      | nil => exact hrest.elim
      | cons fn' rest =>
        obtain ⟨-, hwaits, E', x', l', hslots, hcounts, htyped', hfits, hdesc, hawaits, hups,
          hrest'⟩ := hrest
        have h' : At (.afterInner o outer (result :: L.finished)) E' fn'.nesting
            (.live ⟨l', x'.watch⟩) { s with functions := s.functions.drop 1 } := by
          refine ⟨⟨fn', rest, by simp [hs], rfl,
            htyped'.relog hwaits.size rfl rfl (List.subset_cons_self _ _), ?_⟩, ⟨?_, ?_⟩, ?_, ?_⟩
          · rw [hslots, hcounts]
            exact hrest'.finish
          · rw [hslots]
            exact h.bindings.slots
          · rw [hcounts]
            exact h.bindings.sound
          · rw [hcounts]
            exact h.heap
          · rw [hcounts]
            exact h.counts
        refine (prepareCaptures_at h' _ hups _).bind fun _ _ h' => .pure ?_
        refine .finish h' ⟨hdesc, hwaits.frames, ?_⟩ houter hnew hlast hone hmarked
          (hcounts ▸ hsound) hups
        obtain ⟨w, ws, x₁, k, hws, hw, hfits', hres⟩ := hawaits
        cases hwaits.frames.symm.trans hws
        exact ⟨x₁, k, hw, hfits', hres, rfl⟩

/-- The closure of a function is made, and becomes a method if there are types. -/
theorem resumeClosure_ready (h : At L E y (.live ⟨l, x.watch⟩) s) (ha : Around L E y x k) {v : Value}
    (hv : v.Sound E.counts) {span : Span} {types : Option Nat}
    (hw : (Waiting.closure span types).Awaits x l x k)
    (hcapture : L.CanClose E l (.closure span types) v) :
    Runs c (resumeClosure span types v) s (Ready L) := by
  unfold resumeClosure
  split
  · rename_i fn
    obtain ⟨hfinished, hups⟩ := hcapture fn rfl span types rfl
    refine Runs.bind (emit_at h (.closure l rfl fn rfl hups) rfl rfl
      ⟨trivial, by rintro _ ⟨⟩; exact ⟨hv, hfinished⟩, fun _ => rfl⟩ nofun) fun _ _ h => ?_
    cases hw with
    | closure => exact give_ready h ha
    | method =>
      rw [Layout.values_append_cons] at h
      refine Runs.bind (opCount_at h (.through _ k (.inr rfl) rfl) rfl rfl ?_)
        fun _ _ h => give_ready h ha
      exact ha.catches (List.suffix_append _ _)
  · exact .throw

/-! ### Loops -/

/-- A loop is left with the value on the stack. -/
theorem exitLoop_at (h : At L E y (.live ⟨.value :: l, x.watch⟩) s) (hx : x.Describes E y)
    {loop : LoopScope} (hloop : loop.Surrounds E l) (line : Nat) :
    Runs c (exitLoop line loop) s fun _ s' => At L E y (.dead (l.length + 1) (l.length + 1)) s' := by
  have leave : ∀ {s : CompileState},
      At L E y (.live ⟨.value :: l, Protected.watchOf loop.active⟩) s →
      Runs c (do
        let d ← height
        jump line .exit loop.exit (d - 1 - loop.exitDepth)
        setHeight d) s fun _ s' => At L E y (.dead (l.length + 1) (l.length + 1)) s' := by
    intro s h
    obtain ⟨m, hlabel, hdepth, top, rfl⟩ := hloop.exit
    refine (height_at h).bind ?_
    rintro _ _ ⟨rfl, rfl⟩
    refine Runs.bind (jump_behind h (.exit top m rfl (by simp [hdepth])) hlabel rfl (.refl _) rfl nofun)
      fun _ s h => ?_
    exact (setHeight_at h _).imp fun _ _ h => by simpa using h
  refine (isActive_at h hx loop.active).bind ?_
  rintro b _ ⟨rfl, hb⟩
  refine .ite (fun _ => ?_) fun hactive => ?_
  · refine (activate_at h loop.active fun p hp => ?_).bind fun _ _ h => leave h
    exact (hloop.active p hp).mono (.refl E) (List.suffix_cons _ _)
  · rw [hb (by simpa using hactive)] at h
    exact leave h

theorem eachElement_at (h : At L E y (.live ⟨.value :: k, x.watch⟩) s) (ha : Around L E y x k)
    (line : Nat) :
    Runs c (eachElement line) s fun _ s' => ∃ E', E.Extends E' ∧
      At L E' y (.live ⟨.value :: k, x.watch⟩) s' := by
  refine (height_at h).bind ?_
  rintro _ _ ⟨rfl, rfl⟩
  have hdepth : ((SlotKind.value :: k).length : Int) - 1 = k.length := by simp
  rw [hdepth]
  refine (newLabel_at h ⟨k, x.watch⟩).bind ?_
  rintro ended s ⟨E₁, hE, hended, h⟩
  refine Runs.bind (jump_at h (.iterate k rfl) hended rfl (.refl _) rfl rfl
    ((ha.mono hE).catches (List.suffix_refl k))) fun _ s h => ?_
  refine (newLabel_at h ⟨.iterator :: k, x.watch⟩).bind ?_
  rintro start s ⟨E₂, hE', hstart, h⟩
  replace hended := hE'.labels _ _ hended
  replace ha := ha.mono (hE.trans hE')
  refine Runs.bind (bindLabel_live h hstart (.refl _) (by simp)) fun _ s h => ?_
  refine Runs.bind (opCount_at h (.element _ (.inl rfl) (Layout.kindAt?_cons_length _ _)) rfl
    rfl nofun) fun _ s h => ?_
  have hkind : Layout.kindAt? (.value :: .iterator :: k) k.length = some .iterator :=
    Layout.kindAt?_of_suffix (List.suffix_cons _ _) (Layout.kindAt?_cons_length _ _)
  refine Runs.bind (opCount_at h (.element _ (.inr rfl) hkind) rfl rfl nofun)
    fun _ s h => ?_
  refine Runs.bind (opCount_at h (.suspend 2 (.iterator :: k) rfl rfl) rfl rfl
    (ha.catches ?_)) fun _ s h => ?_
  · exact (List.suffix_cons _ _).trans (List.suffix_append _ _)
  refine Runs.bind (op_at h (.resume _ rfl) rfl rfl (ha.catches (List.suffix_cons _ _)))
    fun _ s h => ?_
  refine Runs.bind (op_at h (.pop _ rfl) rfl rfl nofun) fun _ s h => ?_
  refine Runs.bind (jump_at h (.advance k rfl) hended rfl (.refl _) rfl rfl nofun) fun _ s h => ?_
  refine Runs.bind (goto_at h hstart) fun _ s h => ?_
  refine Runs.bind (bindLabel_dead h hended rfl) fun _ s h => ?_
  exact (op_at h (.push k (.inl rfl)) rfl rfl nofun).imp fun _ s h =>
    ⟨_, hE.trans hE', h⟩

/-! ### Operands -/

theorem consume_ready {n : Nat} (h : At L E y (.live ⟨Layout.values n ++ l, x.watch⟩) s)
    (ha : Around L E y x k) {use : Consumer} (huse : use.Consumes E n l k) (span : Span) :
    Runs c (consume span use n) s (Ready L) := by
  have hk : ∀ {m : Nat}, k <:+ Layout.values m ++ k := List.suffix_append _ _
  unfold consume
  cases use with
  | call =>
    obtain ⟨hpos, rfl⟩ := huse
    obtain ⟨m, rfl⟩ := Nat.exists_eq_succ_of_ne_zero hpos.ne'
    exact Runs.bind (opCount_at h (.call m l rfl (by simp)) rfl rfl
      (ha.catches (List.suffix_refl _))) fun _ _ h => give_ready h ha
  | constCall fn =>
    obtain ⟨hfn, rfl⟩ := huse
    exact Runs.bind (emit_at h (.constCall n l rfl rfl) rfl rfl ⟨hfn, nofun, nofun⟩
      (ha.catches (List.suffix_refl _))) fun _ _ h => give_ready h ha
  | resolve name =>
    obtain ⟨rfl, rfl⟩ := huse
    exact Runs.bind (emit_at h (.resolve l rfl name rfl) rfl rfl ⟨trivial, nofun, nofun⟩
      (ha.catches (List.suffix_refl _))) fun _ _ h => give_ready h ha
  | not =>
    obtain ⟨rfl, rfl⟩ := huse
    exact Runs.bind (op_at h (.not l rfl) rfl rfl nofun) fun _ _ h => give_ready h ha
  | sequence kind =>
    obtain rfl := huse
    cases kind with
    | tuple =>
      exact Runs.bind (opCount_at h (.collect n l (.inl rfl) rfl) rfl rfl nofun)
        fun _ _ h => give_ready h ha
    | list =>
      exact Runs.bind (opCount_at h (.collect n l (.inr rfl) rfl) rfl rfl nofun)
        fun _ _ h => give_ready h ha
  | map =>
    obtain ⟨heven, rfl⟩ := huse
    rw [show n = 2 * (n / 2) by omega] at h
    exact Runs.bind (opCount_at h (.map (n / 2) l rfl rfl) rfl rfl
      (ha.catches (List.suffix_refl _))) fun _ _ h => give_ready h ha
  | suspend =>
    obtain rfl := huse
    refine Runs.bind (opCount_at h (.suspend n l rfl rfl) rfl rfl (ha.catches hk))
      fun _ _ h => ?_
    exact Runs.bind (op_at h (.resume l rfl) rfl rfl (ha.catches (List.suffix_refl _)))
      fun _ _ h => give_ready h ha
  | quote body =>
    obtain ⟨hpresent, hbody, rfl⟩ := huse
    exact Runs.bind (emit_at h (.quote n l rfl rfl body rfl) rfl rfl
      ⟨⟨hpresent, hbody⟩, nofun, nofun⟩ nofun) fun _ _ h => give_ready h ha
  | ret =>
    obtain ⟨rfl, rfl⟩ := huse
    refine (height_at h).bind ?_
    rintro _ _ ⟨rfl, rfl⟩
    refine Runs.bind (emit_behind h (.ret l rfl) rfl (.plain rfl rfl) nofun)
      fun _ s h => ?_
    -- code behind a jump is not reached, and is compiled as if a value had been given
    exact (setHeight_at h _).bind fun _ _ h => give_ready (h.revive rfl (Nat.le_succ _)) ha
  | exit =>
    obtain ⟨rfl, rfl⟩ := huse
    refine (current_at h).bind ?_
    rintro fn _ ⟨rfl, hfn, -⟩
    split
    · rename_i loop loops hloops
      exact (exitLoop_at h ha.describes (ha.surrounds hfn hloops) _).bind fun _ _ h =>
        give_ready (h.revive rfl (Nat.le_succ _)) ha
    · exact Runs.throw.bind (P := fun _ _ => False) nofun
  | each =>
    obtain ⟨rfl, rfl⟩ := huse
    refine (eachElement_at h ha _).bind ?_
    rintro _ s ⟨E', hE, h⟩
    exact give_ready h (ha.mono hE)
  | method params extra body =>
    obtain ⟨hbody, rfl⟩ := huse
    refine beginFunction_ready h ha.toInside ha.describes .method ?_ nofun hbody _ _ _ _ _
    exact ha.fits.mono (.refl E) ((List.suffix_cons _ _).trans (List.suffix_append _ _))

theorem operands_ready (span : Span) (use : Consumer) (items : List Expr)
    (h : At L E y (.live ⟨l, x.watch⟩) s) (ha : Around L E y x k)
    (huse : use.Consumes E items.length l k) (hitems : Expr.AllSound E.counts items)
    (hparts : ∀ e ∈ items, L.Has e) : Runs c (operands span use items) s (Ready L) := by
  cases items with
  | nil => exact consume_ready (n := 0) h ha huse span
  | cons e rest =>
    obtain ⟨he, hrest⟩ := List.forall_mem_cons.1 hparts
    refine andThen_ready h (ha.push ha.describes (ha.fits.mono (.refl E) huse.suffix) ?_) ⟨hrest, he⟩
      hitems.1
    exact .operands (j := 0) (by simp [Nat.add_comm]) huse hitems.2

theorem resumeOperands_ready {j count : Nat}
    (h : At L E y (.live ⟨.value :: (Layout.values j ++ l), x.watch⟩) s) (ha : Around L E y x k)
    {use : Consumer} (huse : use.Consumes E count l k) {rest : List Expr}
    (hcount : count = j + 1 + rest.length) (hrest : Expr.AllSound E.counts rest)
    (hparts : ∀ e ∈ rest, L.Has e) (span : Span) :
    Runs c (resumeOperands span use count rest) s (Ready L) := by
  cases rest with
  | nil =>
    obtain rfl : count = j + 1 := by simpa using hcount
    exact consume_ready h ha huse span
  | cons e rest =>
    have hsuf : k <:+ Layout.values (j + 1) ++ l := huse.suffix.trans (List.suffix_append _ _)
    obtain ⟨he, hlater⟩ := List.forall_mem_cons.1 hparts
    refine andThen_ready (l := Layout.values (j + 1) ++ l) h
      (ha.push ha.describes (ha.fits.mono (.refl E) hsuf) ?_) ⟨hlater, he⟩ hrest.1
    exact .operands (by rw [hcount, List.length_cons]; omega) huse hrest.2

/-! ### Calls -/

theorem expand_ready (h : At L E y (.live ⟨k, x.watch⟩) s) (ha : Around L E y x k) (span : Span)
    (name : Bytes) (fn : Value) (hfn : fn.Sound E.counts) (arity : Int64) {args : List Expr}
    (hargs : ∀ e ∈ args, e.isAbsent = false ∧ e.Sound E.counts)
    (hcall : L.origin.expr.isCall = true) :
    Runs c (expand span name fn arity args) s (Ready L) := by
  refine .ite (fun _ => Runs.throw.bind (P := fun _ _ => False) nofun) fun _ => ?_
  refine (push_at h _).bind fun _ _ h => .pure ?_
  refine .wait h (ha.ask ha.describes .expansion) hcall nofun hfn fun v hv => ?_
  obtain ⟨e, he, rfl⟩ := List.mem_map.1 hv
  exact hargs e he

theorem resumeExpansion_ready (h : At L E y (.live ⟨k, x.watch⟩) s) (ha : Around L E y x k)
    (hcall : L.origin.expr.isCall = true) (span : Span) {v : Value} (hv : v.Sound E.counts) :
    Runs c (resumeExpansion span v) s (Ready L) := by
  unfold resumeExpansion
  have rejected : Runs c (do
      failAt span .expansion ("macro returned non-expression " ++ v.display (← get).heap.shown) :
        Compiling Next) s (Ready L) :=
    Runs.get.bind fun _ _ _ => .throw
  dsimp only
  split
  · refine .ite (fun _ => rejected) fun _ => ?_
    exact andThen_ready h (ha.push ha.describes ha.fits .expanded) ⟨hcall, hcall⟩ hv.2
  · exact rejected

theorem call_ready (hglobals : c.globals.Sound) (h : At L E y (.live ⟨k, x.watch⟩) s)
    (ha : Around L E y x k) (span : Span) {fn : Expr} (hfn : fn.Sound E.counts) {args : List Expr}
    (hpresent : ∀ e ∈ args, e.isAbsent = false) (hargs : Expr.AllSound E.counts args)
    (hexpr : L.origin.expr = .call span fn args) : Runs c (call span fn args) s (Ready L) := by
  refine (constantOf?_at h hglobals hfn).bind ?_
  rintro o _ ⟨rfl, ho⟩
  split
  · rename_i name inner arity
    have hinner : Value.Sound E.counts (.expander name inner arity) := ho _ rfl
    exact expand_ready h ha span name inner hinner arity
      (fun e he => ⟨hpresent e he, Expr.allSound_iff.1 hargs e he⟩) (by rw [hexpr]; rfl)
  · exact operands_ready span .call (fn :: args) h ha ⟨by simp, rfl⟩ ⟨hfn, hargs⟩
      fun e he => .inl (by rw [hexpr]; exact he)

/-! ### Texts and names -/

theorem textParts_ready (h : At L E y (.live ⟨.buffer :: k, x.watch⟩) s) (ha : Around L E y x k)
    (span : Span) {parts : List Expr} (hsound : Expr.AllSound E.counts parts)
    (hparts : ∀ e ∈ parts, L.Has e) : Runs c (textParts span parts) s (Ready L) := by
  induction parts using textParts.induct generalizing s with
  | case1 =>
    exact Runs.bind (op_at h (.stringEnd k rfl) rfl rfl nofun) fun _ _ h =>
      give_ready h ha
  | case2 span' chars rest ih =>
    exact Runs.bind (emit_at h (.stringChars k rfl) rfl rfl (.plain rfl rfl) nofun)
      fun _ _ h => ih h hsound.2 (List.forall_mem_cons.1 hparts).2
  | case3 e rest hne =>
    unfold textParts
    split
    · rename_i heq
      cases heq
    · rename_i heq
      cases heq
      exact absurd rfl (hne _ _)
    · rename_i heq
      cases heq
      refine (spanOf_runs e).bind ?_
      rintro _ _ rfl
      obtain ⟨he, hrest⟩ := List.forall_mem_cons.1 hparts
      exact andThen_ready h (ha.push ha.describes
        (ha.fits.mono (.refl E) (List.suffix_cons _ _)) (.textParts hsound.2)) ⟨hrest, he⟩ hsound.1

theorem name_ready (hglobals : c.globals.Sound) (h : At L E y (.live ⟨k, x.watch⟩) s)
    (ha : Around L E y x k) (span : Span) (n : Bytes) : Runs c (name span n) s (Ready L) := by
  refine (resolve_at h ha.describes ha.fits.floor hglobals span n).bind ?_
  rintro r s ⟨E', hE, h, hr⟩
  replace ha := ha.mono hE
  cases r with
  | constant v o => exact (constant_at h _ hr).bind fun _ _ h => give_ready h ha
  | slot index id =>
    exact Runs.bind (opCount_at h (.load k (.inl rfl) hr) rfl rfl nofun) fun _ _ h =>
      give_ready h ha
  | slotIndirect index id =>
    exact Runs.bind (opCount_at h (.load k (.inr rfl) hr) rfl rfl nofun) fun _ _ h =>
      give_ready h ha
  | captured index id =>
    exact Runs.bind (opCount_at h (.upvalue k rfl hr.1 hr.2) rfl rfl nofun) fun _ _ h =>
      give_ready h ha

end Compiling

end StagedScript
