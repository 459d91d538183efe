import StagedScript.Proofs.Compile.State

/-!
# The primitive actions of the compiler

Each action moves the compiler from one place of typed code to another.  Emitting an instruction
asks for the layouts on its ways out, and fixing a label asks for the point of the label.
-/

namespace StagedScript

variable {L : Log} {E E' : Env} {y : Nesting} {cur cur' : Cursor} {s s' : CompileState}
  {c : Settings} {p q : Point Label} {reached : Nat} {top : Int}

def FunctionState.withNesting (fn : FunctionState) (y : Nesting) : FunctionState :=
  { fn with
    scope := y.scope, reserved := y.reserved, loops := y.loops, guards := y.guards
    handling := y.handling, olds := y.olds, waiting := y.waiting }

/-- Code that is not reached may count with any layout that is not much higher. -/
theorem At.revive
    (h : At L E y (.dead reached top) s) (hq : (q.layout.length : Int) = top)
    (hreached : q.layout.length ≤ reached + 1) : At L E y (.live q) s := by
  obtain ⟨⟨fn, rest, hs, hy, htyped, hrest⟩, hbindings, hheap, hcounts⟩ := h
  exact ⟨⟨fn, rest, hs, hy, htyped.revive hq hreached, hrest⟩, hbindings, hheap, hcounts⟩

namespace Compiling

/-! ### Records -/

theorem modifyCurrent_runs {f : FunctionState → FunctionState} {fn : FunctionState}
    {rest : List FunctionState} (hs : s.functions = fn :: rest) :
    Runs c (modifyCurrent f) s fun _ s' => s' = { s with functions := f fn :: rest } := by
  rintro a s' ⟨⟩
  simp [hs]

theorem current_runs : Runs c current s fun fn s' => s = s' ∧ ∃ rest, s.functions = fn :: rest := by
  refine Runs.get.bind ?_
  rintro _ _ ⟨rfl, rfl⟩
  split
  · exact .pure ⟨rfl, _, by assumption⟩
  · exact .throw

theorem modifyCurrent_fresh {f : FunctionState → FunctionState} (hfresh : L.Fresh s)
    (hf : ∀ fn, (f fn).builder = fn.builder) :
    Runs c (modifyCurrent f) s fun _ s' => L.Fresh s' := by
  obtain ⟨hbegan, fn, rest, hs, hsize⟩ := hfresh
  refine (modifyCurrent_runs hs).imp ?_
  rintro _ _ rfl
  exact ⟨hbegan, f fn, rest, rfl, by rw [hf, hsize]⟩

theorem modifyCurrent_at {f : FunctionState → FunctionState} (g : Nesting → Nesting)
    (h : At L E y cur s)
    (hf : ∀ fn, f fn = { fn.withNesting (g fn.nesting) with decls := (f fn).decls }) :
    Runs c (modifyCurrent f) s fun _ s' => At L E (g y) cur s' := by
  obtain ⟨⟨fn, rest, hs, rfl, htyped, hrest⟩, hbindings, hheap, hcounts⟩ := h
  refine (modifyCurrent_runs hs).imp ?_
  rintro _ _ rfl
  rw [hf]
  exact ⟨⟨_, rest, rfl, rfl, htyped.congr rfl rfl rfl rfl rfl, hrest⟩, hbindings, hheap, hcounts⟩

theorem current_at (h : At L E y cur s) :
    Runs c current s fun fn s' => s = s' ∧ fn.nesting = y ∧ fn.Typed L E cur ∧
      ∃ rest, s.functions = fn :: rest ∧
        Enclosed L.finished E.slots E.counts E.isRoot fn.upvalues fn.captured L.outer rest := by
  obtain ⟨fn, rest, hs, rfl, htyped, hrest⟩ := h.functions
  refine Runs.get.bind ?_
  rintro _ _ ⟨rfl, rfl⟩
  rw [hs]
  exact .pure ⟨rfl, rfl, htyped, rest, rfl, hrest⟩

theorem height_at (h : At L E y (.live p) s) :
    Runs c height s fun n s' => s = s' ∧ n = p.layout.length :=
  (current_at h).bind fun _ _ ⟨hs, _, htyped, _⟩ => .pure ⟨hs, htyped.height.1⟩

theorem height_dead (h : At L E y (.dead reached top) s) :
    Runs c height s fun n s' => s = s' ∧ n = top :=
  (current_at h).bind fun _ _ ⟨hs, _, htyped, _⟩ => .pure ⟨hs, htyped.height.1⟩

theorem push_at (h : At L E y cur s) (w : Waiting) :
    Runs c (push w) s fun _ s' => At L E { y with waiting := w :: y.waiting } cur s' :=
  modifyCurrent_at (fun y => { y with waiting := w :: y.waiting }) h fun _ => rfl

theorem spanOf_runs (e : Expr) : Runs c (spanOf e) s fun _ s' => s = s' := by
  unfold spanOf
  split
  · exact .pure rfl
  · exact .throw

/-! ### Labels -/

theorem newLabel_at (h : At L E y cur s) (q : Point Label) :
    Runs c newLabel s fun l s' => ∃ E', E.Extends E' ∧ E'.labels[l]? = some q ∧
      At L E' y cur s' := by
  refine (current_at h).bind ?_
  rintro fn _ ⟨rfl, rfl, htyped, rest, hs, hrest⟩
  refine (modifyCurrent_runs hs).bind ?_
  rintro _ _ rfl
  refine .pure ⟨E.withLabel q, E.extends_withLabel q, ?_,
    ⟨_, rest, rfl, rfl, htyped.newLabel q, hrest⟩, ⟨h.bindings.slots, h.bindings.sound⟩, h.heap,
    h.counts⟩
  rw [htyped.aims_size]
  exact E.labels_withLabel q

theorem newLabels_at (h : At L E y cur s) (q : Point Label) (n : Nat) :
    Runs c (newLabels n) s fun ls s' => ls.length = n ∧ ∃ E', E.Extends E' ∧ At L E' y cur s' ∧
      ∀ l ∈ ls, E'.labels[l]? = some q := by
  induction n generalizing E s with
  | zero => exact .pure ⟨rfl, E, .refl E, h, by simp⟩
  | succ n ih =>
    refine (newLabel_at h q).bind ?_
    rintro l _ ⟨E₁, hE₁, hl₁, h⟩
    refine (ih h).bind ?_
    rintro ls s' ⟨hlength, E', hE, h, hls⟩
    refine .pure ⟨by simp [hlength], E', hE₁.trans hE, h, fun l hl => ?_⟩
    obtain rfl | hl := List.mem_cons.1 hl
    · exact hE.labels _ _ hl₁
    · exact hls l hl

/-- A label is fixed where its point is, or where control does not come. -/
theorem bindLabel_at (h : At L E y cur s) {l : Label} {depth : Int} (hl : E.labels[l]? = some q)
    (hcur : ∀ p, cur = .live p → p.Enters q) (hdepth : depth = q.layout.length) :
    Runs c (bindLabel l depth) s fun _ s' => At L E y (.live q) s' := by
  subst hdepth
  refine (current_at h).bind ?_
  rintro fn _ ⟨rfl, rfl, htyped, rest, hs, hrest⟩
  split
  · exact .throw
  · rename_i builder hb
    refine (modifyCurrent_runs hs).imp ?_
    rintro _ _ rfl
    exact ⟨⟨_, rest, rfl, rfl, htyped.bind hl hcur hb, hrest⟩, h.bindings, h.heap, h.counts⟩

theorem bindLabel_live (h : At L E y (.live p) s) {l : Label} {depth : Int}
    (hl : E.labels[l]? = some q) (henter : p.Enters q) (hdepth : depth = q.layout.length) :
    Runs c (bindLabel l depth) s fun _ s' => At L E y (.live q) s' :=
  bindLabel_at h hl (by rintro _ ⟨⟩; exact henter) hdepth

theorem bindLabel_dead (h : At L E y (.dead reached top) s) {l : Label}
    {depth : Int} (hl : E.labels[l]? = some q) (hdepth : depth = q.layout.length) :
    Runs c (bindLabel l depth) s fun _ s' => At L E y (.live q) s' :=
  bindLabel_at h hl (by rintro _ ⟨⟩) hdepth

theorem newLabel_fresh (hfresh : L.Fresh s) : Runs c newLabel s fun _ s' => L.Fresh s' := by
  obtain ⟨hbegan, fn, rest, hs, hsize⟩ := hfresh
  refine current_runs.bind ?_
  rintro _ _ ⟨rfl, _, hs'⟩
  cases hs.symm.trans hs'
  refine (modifyCurrent_runs hs).bind ?_
  rintro _ _ rfl
  exact .pure ⟨hbegan, _, rest, rfl, hsize⟩

theorem bindLabel_fresh (hfresh : L.Fresh s) (l : Label) (depth : Int) :
    Runs c (bindLabel l depth) s fun _ s' => L.Fresh s' := by
  obtain ⟨hbegan, fn, rest, hs, hsize⟩ := hfresh
  refine current_runs.bind ?_
  rintro _ _ ⟨rfl, _, hs'⟩
  cases hs.symm.trans hs'
  split
  · exact .throw
  · rename_i builder hb
    refine (modifyCurrent_runs hs).imp ?_
    rintro _ _ rfl
    refine ⟨hbegan, _, rest, rfl, ?_⟩
    rw [← hsize, ← (Builder.bind_same hb).1]

/-! ### Heights -/

theorem setHeight_at (h : At L E y (.dead reached top) s) (n : Int) :
    Runs c (setHeight n) s fun _ s' => At L E y (.dead reached n) s' := by
  obtain ⟨⟨fn, rest, hs, rfl, htyped, hrest⟩, hbindings, hheap, hcounts⟩ := h
  refine (modifyCurrent_runs hs).imp ?_
  rintro _ _ rfl
  exact ⟨⟨_, rest, rfl, rfl, htyped.setTop n, hrest⟩, hbindings, hheap, hcounts⟩

/-! ### Instructions -/

theorem write_runs {f : FunctionState → FunctionState} {fn : FunctionState}
    {rest : List FunctionState} (hs : s.functions = fn :: rest) :
    Runs c (write f) s fun _ s' =>
      (f fn).isTooLarge = false ∧ s' = { s with functions := f fn :: rest } := by
  unfold write
  refine (modifyCurrent_runs hs).bind ?_
  rintro _ _ rfl
  refine current_runs.bind ?_
  rintro _ _ ⟨rfl, _, ⟨⟩⟩
  exact .ite (fun _ => .throw) fun hlarge => .pure ⟨by simpa using hlarge, rfl⟩

theorem write_at {f : FunctionState → FunctionState} (h : At L E y cur s)
    (hf : ∀ fn, fn.Typed L E cur → (f fn).isTooLarge = false → (f fn).Typed L E cur')
    (hnesting : ∀ fn, (f fn).nesting = fn.nesting)
    (hupvalues : ∀ fn, (f fn).upvalues = fn.upvalues)
    (hcaptured : ∀ fn, (f fn).captured = fn.captured) :
    Runs c (write f) s fun _ s' => At L E y cur' s' := by
  obtain ⟨⟨fn, rest, hs, rfl, htyped, hrest⟩, hbindings, hheap, hcounts⟩ := h
  refine (write_runs hs).imp ?_
  rintro _ _ ⟨hlarge, rfl⟩
  refine ⟨⟨f fn, rest, rfl, hnesting fn, hf fn htyped hlarge, ?_⟩, hbindings, hheap, hcounts⟩
  rw [hupvalues, hcaptured]
  exact hrest

theorem op_size (hfresh : L.Fresh s) (line : Nat) (o : Opcode) :
    Runs c (op line o) s fun _ s' =>
      ∃ fn rest, s'.functions = fn :: rest ∧ fn.builder.insts.size = L.began + 1 := by
  obtain ⟨hbegan, fn, rest, hs, hsize⟩ := hfresh
  refine (write_runs hs).imp ?_
  rintro _ _ ⟨-, rfl⟩
  refine ⟨_, rest, rfl, ?_⟩
  rw [hbegan, ← hsize]
  exact Array.size_push _

theorem leads_straight {α : Type} {points : α → Option (Point α)} {i : Inst} {targets : List α}
    {p : Point α} {f : Flow} (hop : i.op ≠ .install)
    (hjump : ∀ l, f.jump = some l → ∀ t ∈ targets, ∃ q, points t = some q ∧
      Point.Enters ⟨l, p.watch⟩ q)
    (hraise : ∀ l, f.raised = some l → p.watch.Catches points l) :
    i.Leads points targets p (f.fall.map (⟨·, p.watch⟩)) f where
  falls l hl := ⟨⟨l, p.watch⟩, by rw [hl]; rfl, by simp [Inst.watchAfter, hop, Point.Enters.refl]⟩
  jumps := hjump
  raises := hraise
  installs h := absurd h hop

section

variable {i : Inst} {f : Flow} {l : Layout} (h : At L E y (.live p) s)
  (hflow : i.Flows E.captures p.layout f)

include h hflow

/-- An instruction without a target is emitted. -/
theorem emit_behind (hop : (i.op.hasTarget || i.op == .switch) = false)
    (hsound : L.Allows E.counts i)
    (hraise : ∀ l, f.raised = some l → p.watch = L.here ∧ p.watch.Catches (E.labels[·]?) l) :
    Runs c (emit i) s fun _ s' => At L E y (.behind p p.watch i f.fall) s' := by
  have hinstall : i.op ≠ .install := fun hi => by
    rw [hi] at hop
    exact absurd hop (by decide)
  obtain ⟨hop, hswitch⟩ : i.op.hasTarget = false ∧ i.op ≠ .switch := by simpa using hop
  refine write_at h (fun fn htyped hlarge => ?_) (fun _ => rfl) (fun _ => rfl) fun _ => rfl
  refine htyped.track hflow hsound (.raising hflow fun l hl => (hraise l hl).1)
    (.none hswitch fun ht => ?_) (by simp) (by simp [Builder.emit, Builder.withInst]) rfl hlarge ?_
  · simp [ht] at hop
  · exact leads_straight hinstall (by simp) fun l hl => (hraise l hl).2

theorem emit_at (hfall : f.fall = some l) (hop : (i.op.hasTarget || i.op == .switch) = false)
    (hsound : L.Allows E.counts i)
    (hraise : ∀ l, f.raised = some l → p.watch = L.here ∧ p.watch.Catches (E.labels[·]?) l) :
    Runs c (emit i) s fun _ s' => At L E y (.live ⟨l, p.watch⟩) s' := by
  have hbehind := emit_behind (c := c) h hflow hop hsound hraise
  rwa [hfall] at hbehind

end

theorem op_at {line : Nat} {o : Opcode} {f : Flow} {l : Layout} (h : At L E y (.live p) s)
    (hflow : (Inst.plain line o).Flows E.captures p.layout f) (hfall : f.fall = some l)
    (hop : (o.hasTarget || o == .switch) = false)
    (hraise : ∀ l, f.raised = some l → p.watch = L.here ∧ p.watch.Catches (E.labels[·]?) l) :
    Runs c (op line o) s fun _ s' => At L E y (.live ⟨l, p.watch⟩) s' :=
  emit_at h hflow hfall hop (.plain rfl rfl) hraise

section

variable {line : Nat} {o : Opcode} {count : Int} {f : Flow} {l m : Layout} {t : Label}
  (h : At L E y (.live p) s)
  (hflow : Inst.Flows E.captures { Inst.plain line o with count } p.layout f)

include h hflow

theorem opCount_at (hfall : f.fall = some l) (hop : (o.hasTarget || o == .switch) = false)
    (hraise : ∀ l, f.raised = some l → p.watch = L.here ∧ p.watch.Catches (E.labels[·]?) l) :
    Runs c (opCount line o count) s fun _ s' => At L E y (.live ⟨l, p.watch⟩) s' :=
  emit_at h hflow hfall hop (.plain rfl rfl) hraise

variable (ht : E.labels[t]? = some q) (hjump : f.jump = some m)
  (henters : Point.Enters ⟨m, p.watch⟩ q)

include ht hjump henters

theorem jump_behind (hop : (o.hasTarget && o != .switch && o != .install) = true)
    (hraise : ∀ l, f.raised = some l → p.watch = L.here ∧ p.watch.Catches (E.labels[·]?) l) :
    Runs c (jump line o t count) s fun _ s' =>
      At L E y (.behind p p.watch { Inst.plain line o with count } f.fall) s' := by
  obtain ⟨⟨htarget, hswitch⟩, hinstall⟩ : (o.hasTarget ∧ o ≠ .switch) ∧ o ≠ .install := by
    simpa using hop
  refine write_at h (fun fn htyped hlarge => ?_) (fun _ => rfl) (fun _ => rfl) fun _ => rfl
  refine htyped.track hflow (.plain rfl rfl) (.raising hflow fun l hl => (hraise l hl).1)
    (.target t hswitch htarget) (by simp)
    (by simp [Builder.emitJump, Builder.emit, Builder.withInst]) rfl hlarge ?_
  exact leads_straight hinstall (by simpa [hjump, ht] using henters) fun l hl => (hraise l hl).2

theorem jump_at (hfall : f.fall = some l)
    (hop : (o.hasTarget && o != .switch && o != .install) = true)
    (hraise : ∀ l, f.raised = some l → p.watch = L.here ∧ p.watch.Catches (E.labels[·]?) l) :
    Runs c (jump line o t count) s fun _ s' => At L E y (.live ⟨l, p.watch⟩) s' := by
  have hbehind := jump_behind (c := c) h hflow ht hjump henters hop hraise
  rwa [hfall] at hbehind

end

theorem goto_at {line : Nat} {t : Label} (h : At L E y (.live p) s) (ht : E.labels[t]? = some p) :
    Runs c (jump line .jump t 0) s fun _ s' =>
      At L E y (.dead p.layout.length p.layout.length) s' :=
  jump_behind h (.jump _ (.inr rfl)) ht rfl (.refl _) rfl nofun

/-- A choice by number ends the code that is reached. -/
theorem switch_at {l : Layout} {w : Watch Label} (h : At L E y (.live ⟨.value :: l, w⟩) s)
    {line : Nat} {labels : List Label} (hne : labels ≠ [])
    (hlabels : ∀ t ∈ labels, E.labels[t]? = some ⟨l, w⟩) :
    Runs c (write fun fn =>
      track { fn with builder := fn.builder.emitSwitch line labels } (.plain line .switch)) s
      fun _ s' => At L E y (.dead (l.length + 1) l.length) s' := by
  refine write_at h (fun fn htyped hlarge => ?_) (fun _ => rfl) (fun _ => rfl) fun _ => rfl
  have htop : (l.length : Int) = (SlotKind.value :: l).length + ((0 : Int) - 1) := by
    rw [List.length_cons]
    omega
  rw [htop]
  refine htyped.track (w := w)
    (i := { Inst.plain line .switch with table := labels.map fun _ => 0 })
    (.switch l rfl (by simpa using hne)) (.plain rfl rfl) (.quiet rfl) (.table labels rfl (by simp))
    (Builder.inst_of_mem_tableSites _ 0 labels) rfl rfl hlarge ?_
  refine leads_straight nofun ?_ nofun
  rintro _ ⟨⟩ t hmem
  rw [Builder.map_label_tableSites] at hmem
  exact ⟨_, hlabels t hmem, .refl _⟩

/-! ### Handlers -/

section

variable {pr : Protected} {line : Nat} (h : At L E y (.live p) s) (hpr : pr.Guards E p.layout)

include hpr in
theorem leads_install {i : Inst} (hop : i.op = .install) (hcount : i.count = pr.depth) :
    i.Leads (E.labels[·]?) [pr.handler] p (some ⟨p.layout, .at pr.handler⟩)
      { fall := some p.layout } where
  falls l hl := by
    cases hl
    exact ⟨_, rfl, by simp [Inst.watchAfter, hop, Point.Enters.refl]⟩
  jumps := nofun
  raises := nofun
  installs _ t ht := by
    obtain rfl := List.mem_singleton.1 ht
    obtain ⟨base, hlabel, hdepth, hsuf⟩ := hpr
    exact ⟨base, ⟨_, hlabel, .refl _⟩, by rw [hcount, hdepth], hsuf⟩

include h hpr in
/-- The handlers of a block become the active ones, with a mark for the instruction. -/
theorem install_first (hfresh : L.Fresh s) :
    Runs c (jump line .install pr.handler pr.depth) s fun _ s' =>
      At (L.withMarks [⟨{ Inst.plain line .install with count := pr.depth }, [pr.handler], p,
        L.origin⟩]) E y (.live ⟨p.layout, .at pr.handler⟩) s' := by
  obtain ⟨⟨fn, rest, hs, rfl, htyped, hrest⟩, hbindings, hheap, hcounts⟩ := h
  obtain ⟨-, fn', rest', hs', hsize⟩ := hfresh
  cases hs.symm.trans hs'
  refine (write_runs hs).imp ?_
  rintro _ _ ⟨hlarge, rfl⟩
  refine ⟨⟨_, rest, rfl, rfl, ?_, hrest⟩, hbindings, hheap, hcounts⟩
  exact htyped.track (i := { Inst.plain line .install with count := pr.depth })
    (.install p.layout rfl) (.plain rfl rfl) (.mark hsize rfl)
    (.target pr.handler nofun rfl) (by simp)
    (by simp [Builder.emitJump, Builder.emit, Builder.withInst]) rfl hlarge
    (leads_install hpr rfl rfl)

include h in
theorem activate_at (o : Option Protected) (ho : ∀ pr, o = some pr → pr.Guards E p.layout) :
    Runs c (activate line o) s fun _ s' =>
      At L E y (.live ⟨p.layout, Protected.watchOf o⟩) s' := by
  -- without a handler the instruction has no target, and nothing is watched behind it
  cases o with
  | none =>
    refine write_at h (fun fn htyped hlarge => ?_) (fun _ => rfl) (fun _ => rfl) fun _ => rfl
    refine htyped.track (i := { Inst.plain line .install with target := noTarget })
      (.install p.layout rfl) (.plain rfl rfl) (.quiet rfl)
      (.none (by simp [Inst.plain]) fun _ => ⟨rfl, rfl⟩) (by simp)
      (by simp [Builder.emit, Builder.withInst]) rfl hlarge ?_
    refine ⟨?_, by simp, by simp, by simp⟩
    rintro _ ⟨⟩
    exact ⟨_, rfl, .refl _⟩
  | some pr =>
    have hpr := ho pr rfl
    refine write_at h (fun fn htyped hlarge => ?_) (fun _ => rfl) (fun _ => rfl) fun _ => rfl
    refine htyped.append (.live ⟨p.layout, .at pr.handler⟩)
      (i := { Inst.plain line .install with count := pr.depth }) (.install p.layout rfl)
      (.plain rfl rfl) (.quiet rfl) (leads_install hpr rfl rfl)
      (.target pr.handler (by simp [Inst.plain]) rfl) (by simp)
      (by simp [Builder.emitJump, Builder.emit, Builder.withInst]) rfl rfl (Int.le_refl _)
      (fun _ _ => .inr rfl) ?_
    obtain ⟨htop, hle⟩ := htyped.height
    refine ⟨htop, ?_⟩
    simp only [Builder.emitJump, Builder.emit, Array.size_push]
    omega

end

theorem isActive_at {x : Context} (h : At L E y cur s) (hx : x.Describes E y) (o : Option Protected) :
    Runs c (isActive o) s fun b s' => s = s' ∧ (b = true → x.watch = Protected.watchOf o) := by
  refine (current_at h).bind ?_
  rintro fn _ ⟨rfl, rfl, -⟩
  refine .pure ⟨rfl, fun hb => ?_⟩
  have hguards : fn.guards = x.guards := congrArg (·.guards) hx.records
  rw [decide_eq_true_eq, hguards] at hb
  unfold Context.watch
  revert hb
  cases x.guards.head? <;> cases o <;> simp [Protected.watchOf]

end Compiling

end StagedScript
