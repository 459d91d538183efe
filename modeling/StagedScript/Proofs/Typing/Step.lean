import StagedScript.Proofs.Typing.Frame

/-!
# Typed instructions have a meaning

An instruction whose layout is one of `Inst.Flows` finds everything it needs on the stack of a call
that fits the layout.  It takes one of the ways out that the flow describes.
-/

namespace StagedScript

open Layout

def Frame.HasCaptured (f : Frame) (h : Heap) (n : Nat) : Prop :=
  n = 0 ∨ ∃ env, f.env = some env ∧ h.capturedCount? env = some n

theorem Frame.HasCaptured.captured? {f : Frame} {h : Heap} {n : Nat} (hc : f.HasCaptured h n)
    {index : Int} (h₀ : 0 ≤ index) (h₁ : index < n) :
    ∃ v, f.captured? h index = some v := by
  rcases hc with rfl | ⟨env, henv, hcount⟩
  · omega
  · simp only [Heap.capturedCount?, Option.map_eq_some_iff] at hcount
    obtain ⟨values, hvalues, rfl⟩ := hcount
    refine ⟨values[index.toNat], ?_⟩
    simp [Frame.captured?, henv, Heap.captured?, hvalues, show ¬ index < 0 by omega]

/-- The next instruction asks for the current element of an iterator of the call that has none. -/
def Inst.Exhausted (i : Inst) (f : Frame) (h : Heap) (its : List Nat) : Prop :=
  (i.op = .key ∨ i.op = .element) ∧
    ∃ n ∈ its, f.stack.get? i.count = some (.iterator n) ∧ ¬ h.Live n

section

variable {points : Int → Option (Point Int)} {i : Inst} {captures : Nat} {l : Layout} {flow : Flow}
  {w : Watch Int} {vs : List Value} {f : Frame} {h : Heap}

/-- A step is taken along one of the ways of a flow, by a call with the given iterators. -/
def Proceeds (points : Int → Option (Point Int)) (i : Inst) (w : Watch Int) (flow : Flow)
    (f : Frame) (h : Heap) (its : List Nat) (o : Option Step) : Prop :=
  ∃ st its', o = some st ∧ st.Takes points i w flow f its' ∧ Moves h st.heap its its'

/-- An instruction takes one of the ways of a flow wherever the stack of the call fits a layout. -/
def Executes (points : Int → Option (Point Int)) (i : Inst) (w : Watch Int) (f : Frame) (h : Heap)
    (l : Layout) (flow : Flow) : Prop :=
  ∀ vs, f.Stands points h l w vs → Proceeds points i w flow f h (l.iterators vs) (Frame.execute i f h)

variable {its : List Nat} {o : Option Step} {s : Stack} {h' : Heap} {l' : Layout}
  {vs' : List Value}

theorem Proceeds.fall (heq : o = some (.next (f.withStack s) h')) (way : flow.fall = some l')
    (hop : i.op ≠ .install) (hst : (f.withStack s).Stands points h' l' w vs')
    (hi : h'.iterations = h.iterations) (hsub : (l'.iterators vs').Sublist its) :
    Proceeds points i w flow f h its o :=
  ⟨_, _, heq, .falls way ⟨rfl, rfl⟩ rfl (by unfold Inst.watchAfter; rwa [if_neg hop]),
    .of_sublist hi hsub⟩

theorem Proceeds.jump {a : Int} (heq : o = some (.next ((f.withStack s).goto a) h'))
    (way : flow.jump = some l') (ha : a ∈ i.targets)
    (hst : (f.withStack s).Stands points h' l' w vs') (hi : h'.iterations = h.iterations)
    (hsub : (l'.iterators vs').Sublist its) : Proceeds points i w flow f h its o :=
  ⟨_, _, heq, .jumps way ⟨rfl, rfl⟩ ha ⟨hst.stack, hst.fits, hst.handler⟩, .of_sublist hi hsub⟩

theorem Proceeds.raise {e : Raised} (heq : o = some (.raise e (f.withStack s) h'))
    (way : flow.raised = some l') (hst : (f.withStack s).Stands points h' l' w vs')
    (hi : h'.iterations = h.iterations) (hsub : (l'.iterators vs').Sublist its) :
    Proceeds points i w flow f h its o :=
  ⟨_, _, heq, .raises way ⟨rfl, rfl⟩ hst, .of_sublist hi hsub⟩

theorem Proceeds.call {fn : Value} {args : List Value}
    (heq : o = some (.call fn args (f.withStack s) h')) (fall : flow.fall = some (.value :: l'))
    (raised : flow.raised = some l') (hst : (f.withStack s).Stands points h' l' w vs')
    (hi : h'.iterations = h.iterations) (hsub : (l'.iterators vs').Sublist its) :
    Proceeds points i w flow f h its o :=
  ⟨_, _, heq, .calls fall raised ⟨rfl, rfl⟩ rfl hst, .of_sublist hi hsub⟩

theorem Inst.target_mem {op : Opcode} (hop : i.op = op)
    (htarget : (op != .switch && op != .install && op.hasTarget) = true) : i.target ∈ i.targets := by
  simp only [Bool.and_eq_true, bne_iff_ne, ne_eq] at htarget
  simp [targets, hop, htarget]

/-! ### Slots and captured values -/

open StagedScript.Frame

theorem store_iterations (h : Heap) (old v : Value) :
    (h.store old v).2.iterations = h.iterations := by
  unfold Heap.store
  split
  · split <;> rfl
  · rfl

theorem execute_load (op : i.op = .local ∨ i.op = .localIndirect)
    (slot : l.kindAt? i.count = some .value) :
    Executes points i w f h l { fall := some (.value :: l) } := by
  intro vs hst
  obtain ⟨ws, v, us, rfl, hslot, hv, hset⟩ := hst.fits.slot slot
  have hget := hst.stack.get?
  rcases op with op | op
  · have hexec : execute i f h = some (.next (f.push (h.deref v)) h) := by
      simp [execute, stepSlot, op, hslot, hget]
    exact .fall hexec rfl (by simp [op]) (hst.push hst.fits _) rfl (by simp)
  · by_cases hnil : v = .nil
    · -- an unset slot gets a placeholder, which is also pushed
      let c := (h.newCell ⟨.nil, false⟩).1
      obtain ⟨s, hs, hholds, -⟩ := hst.stack.set? c
      have hexec : execute i f h =
          some (.next (f.withStack (s.push c)) (h.newCell ⟨.nil, false⟩).2) := by
        simp [execute, stepSlot, op, hslot, hget, hnil, hs, c]
      have hfit := (hset c trivial).1.mono (.newCell h ⟨.nil, false⟩)
      refine .fall hexec rfl (by simp [op])
        (hst.withStack (hholds.push c) (fits_cons.2 ⟨c, _, trivial, hfit, rfl⟩)) rfl ?_
      simp [(hset c trivial).2 rfl]
    · have hexec : execute i f h = some (.next (f.push (h.deref v)) h) := by
        simp only [execute, stepSlot, op, hslot, hget]
        cases v <;> simp_all
      exact .fall hexec rfl (by simp [op]) (hst.push hst.fits _) rfl (by simp)

theorem execute_box (op : i.op = .box) (slot : l.kindAt? i.count = some .value) :
    Executes points i w f h l { fall := some l } := by
  intro vs hst
  obtain ⟨ws, v, us, rfl, hslot, hv, hset⟩ := hst.fits.slot slot
  have hget := hst.stack.get?
  by_cases hcell : ∃ n, v = .cell n
  · obtain ⟨n, rfl⟩ := hcell
    have hexec : execute i f h = some (.next f h) := by
      simp [execute, stepSlot, op, hslot, hget]
    exact .fall hexec rfl (by simp [op]) hst rfl (.refl _)
  · let c := (h.newCell ⟨v, true⟩).1
    obtain ⟨s, hs, hholds, -⟩ := hst.stack.set? c
    have hexec : execute i f h = some (.next (f.withStack s) (h.newCell ⟨v, true⟩).2) := by
      simp only [execute, stepSlot, op, hslot, hget]
      cases v <;> simp_all [c]
    refine .fall hexec rfl (by simp [op])
      (hst.withStack hholds ((hset c trivial).1.mono (.newCell h ⟨v, true⟩))) rfl ?_
    rw [(hset c trivial).2 rfl]

theorem execute_store
    (op : i.op = .assignLocal ∨ i.op = .initVar ∨ i.op = .initLet ∨ i.op = .letBackfill ∨ i.op = .initRef)
    (slot : l.kindAt? i.count = some .value) :
    Executes points i w f h (.value :: l) { fall := some (.value :: l) } := by
  intro vs hst
  obtain ⟨top, vs, -, hfit, rfl⟩ := fits_cons.1 hst.fits
  have htop := hst.stack.top?
  obtain ⟨ws, v, us, rfl, hslot, hv, hset⟩ := hfit.slot slot
  have hholds : f.stack.Holds ((top :: ws) ++ v :: us) := hst.stack
  have hget := hholds.get?
  -- whatever is stored, the slot is for values
  have hdone : ∀ (x : Value) (h' : Heap), h.Grows h' → h'.iterations = h.iterations →
      (∀ s, f.stack.set? us.length x = some s →
        execute i f h = some (.next (f.withStack s) h')) →
      Proceeds points i w { fall := some (.value :: l) } f h
        (iterators (.value :: l) (top :: (ws ++ v :: us))) (execute i f h) := by
    intro x h' hg hi hexec
    obtain ⟨s, hs, hholds', -⟩ := hholds.set? x
    have hfit' := (hset x trivial).1.mono hg
    refine .fall (hexec s hs) rfl (by rcases op with op | op | op | op | op <;> simp [op])
      (hst.withStack hholds' (fits_cons.2 ⟨top, _, trivial, hfit', rfl⟩)) hi ?_
    simp [(hset x trivial).2 rfl]
  rcases op with op | op | op | op | op
  · refine hdone (h.store v top).1 (h.store v top).2 (.store ..) (store_iterations ..) ?_
    intro s hs
    simp [execute, stepSlot, op, hslot, hget, htop, hs]
  · exact hdone top h (.refl h) rfl fun s hs => by
      simp [execute, stepSlot, op, hslot, htop, hs]
  · exact hdone top h (.refl h) rfl fun s hs => by
      simp [execute, stepSlot, op, hslot, htop, hs]
  · by_cases hcell : ∃ n, v = .cell n
    · obtain ⟨n, rfl⟩ := hcell
      exact hdone top (h.setCell n top) (.setCell ..) rfl fun s hs => by
        simp [execute, stepSlot, op, hslot, hget, htop, hs]
    · refine hdone top h (.refl h) rfl fun s hs => ?_
      simp only [execute, stepSlot, op, hslot, hget, htop]
      cases v <;> simp_all
  · exact hdone top h (.refl h) rfl fun s hs => by
      simp [execute, stepSlot, op, hslot, htop, hs]

theorem execute_upvalue {v : Value} (op : i.op = .upvalue) (hv : f.captured? h i.count = some v) :
    Executes points i w f h l { fall := some (.value :: l) } := by
  intro vs hst
  have hexec : execute i f h = some (.next (f.push (h.deref v)) h) := by
    simp [execute, stepSlot, op, hv]
  exact .fall hexec rfl (by simp [op]) (hst.push hst.fits _) rfl (by simp)

theorem execute_assignUpvalue {v : Value} (op : i.op = .assignUpvalue)
    (hv : f.captured? h i.count = some v) :
    Executes points i w f h (.value :: l) { fall := some (.value :: l) } := by
  intro vs hst
  obtain ⟨top, vs, -, hfit, rfl⟩ := fits_cons.1 hst.fits
  have htop := hst.stack.top?
  obtain ⟨env, henv⟩ : ∃ env, f.env = some env := by
    unfold Frame.captured? at hv
    split at hv
    · exact absurd hv (by simp)
    · obtain ⟨env, henv, -⟩ := Option.bind_eq_some_iff.1 hv
      exact ⟨env, henv⟩
  have hexec : execute i f h = some (.next f
      ((h.store v top).2.setCaptured env i.count.toNat (h.store v top).1)) := by
    simp [execute, stepSlot, op, hv, htop, henv]
  refine .fall hexec rfl (by simp [op])
    ⟨hst.stack, hst.fits.mono ((Heap.Grows.store ..).trans (.setCaptured ..)), hst.handler⟩
    (store_iterations ..) (.refl _)

/-! ### Transfers of control -/

theorem execute_jump (op : i.op = .link ∨ i.op = .jump) :
    Executes points i w f h l { jump := some l } := by
  intro vs hst
  have hexec : execute i f h = some (.next (f.goto i.target) h) := by
    rcases op with op | op <;> simp [execute, stepControl, op]
  refine .jump hexec rfl ?_ ⟨hst.stack, hst.fits, hst.handler⟩ rfl (.refl _)
  rcases op with op | op <;> exact Inst.target_mem op rfl

variable {n : Nat} {it : Iteration} {top : Layout}

theorem execute_goto (op : i.op = .goto) (count : i.count = top.length) :
    Executes points i w f h (top ++ l) { jump := some l } := by
  intro vs hst
  obtain ⟨ws, us, hws, hus, rfl⟩ := fits_append.1 hst.fits
  obtain ⟨s, hs, hholds, -⟩ := hst.stack.cut?
  have hdepth := hst.stack.depth
  rw [List.length_append] at hdepth
  have hheight : (f.stack.depth : Int) - i.count = us.length := by
    rw [count, ← hws.length]
    omega
  have hexec : execute i f h = some (.next ((f.withStack s).goto i.target) h) := by
    simp [execute, stepControl, op, hheight, hs]
  refine .jump hexec rfl (Inst.target_mem op rfl) ⟨hholds, hus, hst.handler⟩ rfl ?_
  rw [iterators_append hws.length]
  exact List.sublist_append_right _ _

theorem execute_retry (op : i.op = .retry) (count : i.count = l.length) :
    Executes points i w f h (top ++ l) { jump := some l } := by
  intro vs hst
  obtain ⟨ws, us, hws, hus, rfl⟩ := fits_append.1 hst.fits
  obtain ⟨s, hs, hholds, -⟩ := hst.stack.cut?
  have hexec : execute i f h = some (.next ((f.withStack s).goto i.target) h) := by
    simp [execute, stepControl, op, count, ← hus.length, hs]
  refine .jump hexec rfl (Inst.target_mem op rfl) ⟨hholds, hus, hst.handler⟩ rfl ?_
  rw [iterators_append hws.length]
  exact List.sublist_append_right _ _

theorem execute_exit (op : i.op = .exit) (count : i.count = top.length) :
    Executes points i w f h (.value :: (top ++ l)) { jump := some (.value :: l) } := by
  intro vs hst
  obtain ⟨v, vs, -, hfit, rfl⟩ := fits_cons.1 hst.fits
  obtain ⟨ws, us, hws, hus, rfl⟩ := fits_append.1 hfit
  obtain ⟨s, hs, hholds⟩ := hst.stack.drop?
  have hexec : execute i f h = some (.next ((f.withStack s).goto i.target) h) := by
    simp [execute, stepControl, op, count, ← hws.length, hs]
  refine .jump hexec rfl (Inst.target_mem op rfl)
    ⟨hholds, fits_cons.2 ⟨v, us, trivial, hus, rfl⟩, hst.handler⟩ rfl ?_
  simp only [iterators_value]
  rw [iterators_append hws.length]
  exact List.sublist_append_right _ _

theorem execute_test (op : i.op = .ifNil ∨ i.op = .ifNotNil) :
    Executes points i w f h (.value :: l) { fall := some l, jump := some l } := by
  intro vs hst
  obtain ⟨v, vs, s, rfl, -, hs, hholds, hfit⟩ := hst.pop
  have hcases : execute i f h = some (.next (f.withStack s) h) ∨
      execute i f h = some (.next ((f.withStack s).goto i.target) h) := by
    rcases op with op | op <;> simp only [execute, stepControl, op, hs] <;> cases v <;> simp
  rcases hcases with hexec | hexec
  · exact .fall hexec rfl (by rcases op with op | op <;> simp [op])
      (hst.withStack hholds hfit) rfl (by simp)
  · refine .jump hexec rfl ?_ ⟨hholds, hfit, hst.handler⟩ rfl (by simp)
    rcases op with op | op <;> exact Inst.target_mem op rfl

theorem execute_connective (op : i.op = .and ∨ i.op = .or) :
    Executes points i w f h (.value :: l) { fall := some l, jump := some (.value :: l) } := by
  intro vs hst
  obtain ⟨v, vs, s, rfl, -, hs, hholds, hfit⟩ := hst.pop
  have hcases : execute i f h = some (.next (f.withStack s) h) ∨
      execute i f h = some (.next (f.goto i.target) h) := by
    rcases op with op | op <;> simp only [execute, stepControl, op, hs] <;> cases v <;> simp
  rcases hcases with hexec | hexec
  · exact .fall hexec rfl (by rcases op with op | op <;> simp [op])
      (hst.withStack hholds hfit) rfl (by simp)
  · refine .jump hexec rfl ?_ ⟨hst.stack, hst.fits, hst.handler⟩ rfl (.refl _)
    rcases op with op | op <;> exact Inst.target_mem op rfl

theorem switchTarget?_mem {table : List Int} (ht : table ≠ []) (v : Value) :
    ∃ a ∈ table, switchTarget? table v = some a := by
  have hpos := List.length_pos_iff.2 ht
  have hlast : ∃ a ∈ table, table[table.length - 1]? = some a :=
    ⟨_, List.getElem_mem (by omega), List.getElem?_eq_getElem (by omega)⟩
  unfold switchTarget?
  dsimp only
  split
  next n =>
    split
    next hn =>
      simp only [Bool.and_eq_true, decide_eq_true_eq] at hn
      have : n.toInt.toNat < table.length := by omega
      exact ⟨_, List.getElem_mem this, List.getElem?_eq_getElem this⟩
    next => exact hlast
  next => exact hlast

theorem execute_switch (op : i.op = .switch) (table : i.table ≠ []) :
    Executes points i w f h (.value :: l) { jump := some l } := by
  intro vs hst
  obtain ⟨v, vs, s, rfl, -, hs, hholds, hfit⟩ := hst.pop
  obtain ⟨a, hmem, ha⟩ := switchTarget?_mem table v
  have hexec : execute i f h = some (.next ((f.withStack s).goto a) h) := by
    simp [execute, stepControl, op, hs, ha]
  refine .jump hexec rfl ?_ ⟨hholds, hfit, hst.handler⟩ rfl (by simp)
  simpa [Inst.targets, op, Frame.goto] using hmem

theorem execute_install (op : i.op = .install)
    (hinstalls : ∀ t ∈ i.targets, ∃ base : Layout, base.HandledAt points t ∧
          (base.length : Int) = i.count ∧ base <:+ l) :
    Executes points i w f h l { fall := some l } := by
  intro vs hst
  have hexec : execute i f h =
      some (.next { f with handler := i.target, handlerDepth := i.count } h) := by
    simp [execute, stepControl, op]
  refine ⟨_, _, hexec, .falls rfl ⟨rfl, rfl⟩ rfl ⟨hst.stack, hst.fits, ?_⟩,
    .of_sublist rfl (.refl _)⟩
  by_cases ht : i.target = noTarget
  · simp [Inst.watchAfter, op, Inst.targets, ht, Watch.Governs]
  · have htargets : i.targets = [i.target] := by simp [Inst.targets, op, ht]
    obtain ⟨base, hbase, hcount, -⟩ := hinstalls i.target (by simp [htargets])
    simp only [Inst.watchAfter, op, htargets, if_true, Watch.Governs, true_and]
    exact ⟨base, hbase, hcount.symm⟩

theorem execute_catchOn (op : i.op = .catchOn) (count : i.count = n) :
    Executes points i w f h (values n ++ .value :: l)
      { fall := some (.value :: l), jump := some (.value :: l) } := by
  intro vs hst
  obtain ⟨ws, us, s, rfl, hs, hholds, hfit, hits⟩ := hst.popValues
  obtain ⟨v, us, -, -, rfl⟩ := fits_cons.1 hfit
  rw [hits]
  have hcases : execute i f h = some (.next (f.withStack s) h) ∨
      execute i f h = some (.next ((f.withStack s).goto i.target) h) := by
    by_cases hc : isCaught h v ws.reverse <;>
      simp [execute, stepControl, op, count, hs, hholds.top?, hc]
  rcases hcases with hexec | hexec
  · exact .fall hexec rfl (by simp [op]) (hst.withStack hholds hfit) rfl (.refl _)
  · exact .jump hexec rfl (Inst.target_mem op rfl) ⟨hholds, hfit, hst.handler⟩ rfl (.refl _)

theorem execute_raise (op : i.op = .raise) :
    Executes points i w f h (.value :: l) { raised := some l } := by
  intro vs hst
  obtain ⟨v, vs, s, rfl, -, hs, hholds, hfit⟩ := hst.pop
  have hexec : execute i f h = some (.raise (raisedBy h v) (f.withStack s) h) := by
    simp [execute, stepControl, op, hs]
  exact .raise hexec rfl (hst.withStack hholds hfit) rfl (by simp)

theorem execute_ret (op : i.op = .ret) : Executes points i w f h (.value :: l) {} := by
  intro vs hst
  obtain ⟨v, vs, s, rfl, -, hs, hholds, hfit⟩ := hst.pop
  have hexec : execute i f h = some (.return v h) := by
    simp [execute, stepControl, op, hs]
  exact ⟨_, _, hexec, .returns, .of_sublist rfl (List.nil_sublist _)⟩

theorem execute_call (op : i.op = .call) (count : i.count = n) :
    Executes points i w f h (values (n + 1) ++ l) { fall := some (.value :: l), raised := some l } := by
  intro vs hst
  -- the function is below the arguments
  have hlayout : values (n + 1) ++ l = values n ++ .value :: l := by
    simp [values, List.replicate_succ']
  rw [hlayout] at hst ⊢
  obtain ⟨ws, us, s, rfl, hs, hholds, hfit, hits⟩ := hst.popValues
  obtain ⟨v, us, -, hfit', rfl⟩ := fits_cons.1 hfit
  obtain ⟨s', hs', hholds', -⟩ := hholds.pop?
  have hexec : execute i f h = some (.call v ws.reverse (f.withStack s') h) := by
    simp [execute, stepControl, op, count, hs, hs']
  exact .call hexec rfl rfl (hst.withStack hholds' hfit') rfl (by simp [hits])

theorem execute_constCall (op : i.op = .constCall) (count : i.count = n) :
    Executes points i w f h (values n ++ l) { fall := some (.value :: l), raised := some l } := by
  intro vs hst
  obtain ⟨ws, us, s, rfl, hs, hholds, hfit, hits⟩ := hst.popValues
  have hexec : execute i f h = some (.call i.value ws.reverse (f.withStack s) h) := by
    simp [execute, stepControl, op, count, hs]
  exact .call hexec rfl rfl (hst.withStack hholds hfit) rfl (by simp [hits])

/-! ### Making and taking apart values -/

theorem execute_push (op : i.op = .nil ∨ i.op = .const) :
    Executes points i w f h l { fall := some (.value :: l) } := by
  intro vs hst
  obtain ⟨v, hexec⟩ : ∃ v, execute i f h = some (.next (f.push v) h) := by
    rcases op with op | op <;> simp [execute, stepData, op]
  exact .fall hexec rfl (by rcases op with op | op <;> simp [op])
    (hst.push hst.fits v) rfl (by simp)

theorem execute_pop (op : i.op = .pop) :
    Executes points i w f h (.value :: l) { fall := some l } := by
  intro vs hst
  obtain ⟨v, vs, s, rfl, -, hs, hholds, hfit⟩ := hst.pop
  have hexec : execute i f h = some (.next (f.withStack s) h) := by
    simp [execute, stepData, op, hs]
  exact .fall hexec rfl (by simp [op]) (hst.withStack hholds hfit) rfl (by simp)

theorem execute_dup (op : i.op = .dup) :
    Executes points i w f h (.value :: l) { fall := some (.value :: .value :: l) } := by
  intro vs hst
  obtain ⟨v, vs, -, hfit, rfl⟩ := fits_cons.1 hst.fits
  have hexec : execute i f h = some (.next (f.push v) h) := by
    simp [execute, stepData, op, hst.stack.top?]
  exact .fall hexec rfl (by simp [op]) (hst.push hst.fits v) rfl (by simp)

theorem execute_not (op : i.op = .not) :
    Executes points i w f h (.value :: l) { fall := some (.value :: l) } := by
  intro vs hst
  obtain ⟨v, vs, s, rfl, -, hs, hholds, hfit⟩ := hst.pop
  obtain ⟨x, hexec⟩ : ∃ x, execute i f h = some (.next (f.withStack (s.push x)) h) := by
    simp only [execute, stepData, op, hs]
    cases v <;> exact ⟨_, rfl⟩
  exact .fall hexec rfl (by simp [op]) ((hst.withStack hholds hfit).push hfit x) rfl (by simp)

theorem execute_leave (op : i.op = .leave) (count : i.count = n) :
    Executes points i w f h (.value :: (values n ++ l)) { fall := some (.value :: l) } := by
  intro vs hst
  obtain ⟨v, vs, -, hfit, rfl⟩ := fits_cons.1 hst.fits
  obtain ⟨ws, us, hws, hus, rfl⟩ := fits_append.1 hfit
  have hlen := (fits_values n).1 hws
  obtain ⟨s, hs, hholds⟩ := hst.stack.drop?
  have hexec : execute i f h = some (.next (f.withStack s) h) := by
    simp [execute, stepData, op, count, ← hlen, hs]
  refine .fall hexec rfl (by simp [op])
    (hst.withStack hholds (fits_cons.2 ⟨v, us, trivial, hus, rfl⟩)) rfl ?_
  simp [iterators_append hws.length, iterators_values hlen]

theorem fits_pushed (ws : List Value) (hfit : l.Fits h vs) :
    Fits h (values ws.length ++ l) (ws.reverse ++ vs) ∧
      iterators (values ws.length ++ l) (ws.reverse ++ vs) = l.iterators vs := by
  have hws : (values ws.length).Fits h ws.reverse := (fits_values _).2 (by simp)
  refine ⟨fits_append.2 ⟨_, vs, hws, hfit, rfl⟩, ?_⟩
  rw [iterators_append hws.length, iterators_values (by simp), List.nil_append]

theorem execute_enter (op : i.op = .enter) :
    Executes points i w f h l { fall := some (values i.decls.length ++ l) } := by
  intro vs hst
  let ws : List Value := i.decls.map fun _ => .nil
  have hexec : execute i f h = some (.next (f.withStack (f.stack.pushAll ws)) h) := by
    simp [execute, stepData, op, ws]
  have hlen : ws.length = i.decls.length := by simp [ws]
  obtain ⟨hfit, hits⟩ := fits_pushed ws hst.fits
  rw [hlen] at hfit hits
  exact .fall hexec rfl (by simp [op]) (hst.withStack (hst.stack.pushAll ws) hfit)
    rfl (by rw [hits])

theorem execute_unpack (op : i.op = .unpack) (count : i.count = n) :
    Executes points i w f h (.value :: l) { fall := some (values n ++ l), raised := some l } := by
  intro vs hst
  obtain ⟨v, vs, s, rfl, -, hs, hholds, hfit⟩ := hst.pop
  have hcases : (∃ elems : List Value, elems.length = n ∧
        execute i f h = some (.next (f.withStack (s.append elems)) h)) ∨
      ∃ e, execute i f h = some (.raise e (f.withStack s) h) := by
    simp only [execute, stepData, op, hs, count, Frame.unpack, Option.bind_eq_bind,
      Option.bind_some, if_neg (Int.not_lt.2 (Int.natCast_nonneg n)), Int.toNat_natCast]
    have hlen : ∀ elems : List Value, (elements elems n).length = n := by
      intro elems
      simp [elements]
      omega
    split
    · exact .inl ⟨_, hlen _, rfl⟩
    · exact .inl ⟨_, hlen _, rfl⟩
    · exact .inl ⟨_, hlen _, rfl⟩
    · exact .inr ⟨_, rfl⟩
  rcases hcases with ⟨elems, hlen, hexec⟩ | ⟨e, hexec⟩
  · obtain ⟨hfit', hits⟩ := fits_pushed elems hfit
    rw [hlen] at hfit' hits
    exact .fall hexec rfl (by simp [op])
      (hst.withStack (hholds.append elems) hfit') rfl (by simp [hits])
  · exact .raise hexec rfl (hst.withStack hholds hfit) rfl (by simp)

theorem execute_symbols (op : i.op = .symbols) :
    Executes points i w f h (.value :: l)
      { fall := some (values i.decls.length ++ l), raised := some l } := by
  intro vs hst
  obtain ⟨v, vs, s, rfl, -, hs, hholds, hfit⟩ := hst.pop
  by_cases hmem : v.hasMembers
  · let ws := i.decls.map fun d => ((v.member? d.name).bind id).getD .nil
    have hexec : execute i f h = some (.next (f.withStack (s.pushAll ws)) h) := by
      simp [execute, stepData, op, hs, hmem, ws, Frame.withStack]
    have hlen : ws.length = i.decls.length := by simp [ws]
    obtain ⟨hfit', hits⟩ := fits_pushed ws hfit
    rw [hlen] at hfit' hits
    exact .fall hexec rfl (by simp [op])
      (hst.withStack (hholds.pushAll ws) hfit') rfl (by simp [hits])
  · obtain ⟨e, hexec⟩ : ∃ e, execute i f h = some (.raise e (f.withStack s) h) := by
      simp [execute, stepData, op, hs, hmem]
    exact .raise hexec rfl (hst.withStack hholds hfit) rfl (by simp)

theorem execute_collect (op : i.op = .tuple ∨ i.op = .list) (count : i.count = n) :
    Executes points i w f h (values n ++ l) { fall := some (.value :: l) } := by
  intro vs hst
  obtain ⟨ws, us, s, rfl, hs, hholds, hfit, hits⟩ := hst.popValues
  obtain ⟨x, hexec⟩ : ∃ x, execute i f h = some (.next (f.withStack (s.push x)) h) := by
    rcases op with op | op <;> simp only [execute, stepData, op, count, hs] <;> exact ⟨_, rfl⟩
  exact .fall hexec rfl (by rcases op with op | op <;> simp [op])
    ((hst.withStack hholds hfit).push hfit x) rfl (by simp [hits])

theorem execute_quote {e : Expr} (op : i.op = .quote) (count : i.count = n)
    (value : i.value = .expr e) :
    Executes points i w f h (values n ++ l) { fall := some (.value :: l) } := by
  intro vs hst
  obtain ⟨ws, us, s, rfl, hs, hholds, hfit, hits⟩ := hst.popValues
  let x : Value := .expr (e.instantiate ws.reverse h.nextDecl).1
  let h' : Heap := { h with nextDecl := (e.instantiate ws.reverse h.nextDecl).2 }
  have hexec : execute i f h = some (.next (f.withStack (s.push x)) h') := by
    simp [execute, stepData, op, count, value, hs, x, h']
  have hfit' : l.Fits h' us := hfit.mono (.of_eq rfl rfl rfl)
  exact .fall hexec rfl (by simp [op])
    ((hst.withStack hholds hfit').push hfit' x) rfl (by simp [hits])

theorem execute_map (op : i.op = .map) (count : i.count = n) (hn : (n : Int) < Func.addressLimit) :
    Executes points i w f h (values (2 * n) ++ l) { fall := some (.value :: l), raised := some l } := by
  intro vs hst
  obtain ⟨ws, us, s, rfl, hs, hholds, hfit, hits⟩ := hst.popValues
  have hwrap : wrapInt (2 * i.count) = ((2 * n : Nat) : Int) := by
    unfold Func.addressLimit at hn
    rw [count, wrapInt_of_small (by omega) (by omega)]
    omega
  rw [← hwrap] at hs
  cases hm : collect h ws.reverse {} with
  | ok m =>
    have hexec : execute i f h = some (.next (f.withStack (s.push (.map m.entries))) h) := by
      simp [execute, stepData, op, hs, hm]
    exact .fall hexec rfl (by simp [op])
      ((hst.withStack hholds hfit).push hfit _) rfl (by simp [hits])
  | error e =>
    have hexec : execute i f h = some (.raise e (f.withStack s) h) := by
      simp [execute, stepData, op, hs, hm]
    exact .raise hexec rfl (hst.withStack hholds hfit) rfl (by simp [hits])

theorem execute_resolve {name : Bytes} (op : i.op = .resolve) (value : i.value = .str name) :
    Executes points i w f h (.value :: l) { fall := some (.value :: l), raised := some l } := by
  intro vs hst
  obtain ⟨v, vs, s, rfl, -, hs, hholds, hfit⟩ := hst.pop
  have hcases : (∃ m, execute i f h = some (.next ((f.withStack s).push m) h)) ∨
      ∃ e, execute i f h = some (.raise e (f.withStack s) h) := by
    simp only [execute, stepData, op, hs, value, Option.bind_eq_bind, Option.bind_some]
    split
    · exact .inr ⟨_, rfl⟩
    · split
      · exact .inl ⟨_, rfl⟩
      · exact .inr ⟨_, rfl⟩
  rcases hcases with ⟨m, hexec⟩ | ⟨e, hexec⟩
  · exact .fall hexec rfl (by simp [op]) ((hst.withStack hholds hfit).push hfit m) rfl (by simp)
  · exact .raise hexec rfl (hst.withStack hholds hfit) rfl (by simp)

theorem capture?_isSome (hst : f.Stands points h l w vs) (hcap : f.HasCaptured h captures) {u : Int}
    (hu : l.CanCapture captures u) : ∃ v, f.capture? h u = some v := by
  unfold Frame.capture?
  split
  next h₀ =>
    obtain ⟨ws, v, us, rfl, hslot, -⟩ := hst.fits.slot (hu.1 h₀)
    exact ⟨v, by rw [hslot]; exact hst.stack.get?⟩
  next h₀ => exact hcap.captured? (by omega) (hu.2 (by omega))

/-- A traversal succeeds if every visit does, and visits every element once. -/
theorem exists_mapM {α β : Type} {g : α → Option β} {as : List α}
    (hg : ∀ a ∈ as, ∃ b, g a = some b) : ∃ bs, as.mapM g = some bs ∧ bs.length = as.length := by
  induction as with
  | nil => exact ⟨[], rfl, rfl⟩
  | cons a as ih =>
    obtain ⟨b, hb⟩ := hg a (by simp)
    obtain ⟨bs, hbs, hlen⟩ := ih fun a ha => hg a (by simp [ha])
    exact ⟨b :: bs, by simp [List.mapM_cons, hb, hbs], by simp [hlen]⟩

theorem execute_closure {fn : Func} {values : List Value} (op : i.op = .closure)
    (func : i.func = some fn) (hvalues : fn.upvalues.mapM (f.capture? h) = some values) :
    Executes points i w f h l { fall := some (.value :: l) } := by
  intro vs hst
  let h' := (h.newEnvironment values.toArray).2
  have hexec : execute i f h =
      some (.next (f.push (.closure fn (h.newEnvironment values.toArray).1)) h') := by
    simp [execute, stepData, op, func, hvalues, h']
  exact .fall hexec rfl (by simp [op])
    (hst.push (hst.fits.mono (.newEnvironment ..)) _) rfl (by simp)

theorem execute_unsupported (way : flow.raised = some l)
    (op : i.op = .assign ∨ i.op = .method ∨ i.op = .suspend ∨ i.op = .resume) :
    Executes points i w f h l flow := by
  intro vs hst
  obtain ⟨e, hexec⟩ : ∃ e, execute i f h = some (.raise e f h) := by
    rcases op with op | op | op | op <;> simp [execute, stepData, op]
  exact .raise hexec way hst rfl (.refl _)

/-! ### Texts -/

theorem execute_stringNew (op : i.op = .stringNew) :
    Executes points i w f h l { fall := some (.buffer :: l) } := by
  intro vs hst
  have hexec : execute i f h = some (.next (f.push h.newBuffer.1) h.newBuffer.2) := by
    simp [execute, stepData, op]
  refine .fall hexec rfl (by simp [op])
    ⟨hst.stack.push _, fits_cons.2 ⟨_, vs, ⟨_, rfl⟩, hst.fits.mono (.newBuffer h), rfl⟩, hst.handler⟩
    rfl (by simp)

theorem execute_stringAdd (op : i.op = .stringAdd) (count : i.count = n) :
    Executes points i w f h (values n ++ .buffer :: l) { fall := some (.buffer :: l) } := by
  intro vs hst
  obtain ⟨ws, us, s, rfl, hs, hholds, hfit, hits⟩ := hst.popValues
  obtain ⟨v, us, ⟨b, rfl⟩, -, rfl⟩ := fits_cons.1 hfit
  rw [hits]
  have hexec : execute i f h = some (.next (f.withStack s)
      (h.write b (ws.reverse.flatMap fun v => (h.deref v).toText h.shown))) := by
    simp [execute, stepData, op, count, hs, hholds.top?]
  exact .fall hexec rfl (by simp [op]) (hst.withStack hholds (hfit.mono (.write ..))) rfl (.refl _)

theorem execute_stringChars (op : i.op = .stringChars) :
    Executes points i w f h (.buffer :: l) { fall := some (.buffer :: l) } := by
  intro vs hst
  obtain ⟨v, us, ⟨b, rfl⟩, -, rfl⟩ := fits_cons.1 hst.fits
  have hexec : execute i f h = some (.next f (h.write b i.chars)) := by
    simp [execute, stepData, op, hst.stack.top?]
  exact .fall hexec rfl (by simp [op])
    ⟨hst.stack, hst.fits.mono (.write ..), hst.handler⟩ rfl (.refl _)

theorem execute_stringEnd (op : i.op = .stringEnd) :
    Executes points i w f h (.buffer :: l) { fall := some (.value :: l) } := by
  intro vs hst
  obtain ⟨v, us, s, rfl, ⟨b, rfl⟩, hs, hholds, hfit⟩ := hst.pop
  have hexec : execute i f h =
      some (.next (f.withStack (s.push (.str (h.bufferText b)))) h) := by
    simp [execute, stepData, op, hs]
  exact .fall hexec rfl (by simp [op]) ((hst.withStack hholds hfit).push hfit _) rfl (by simp)

/-! ### Iterators -/

theorem iteration?_sizes {v : Value} (h : v.iteration? = some it) :
    it.keys.size = it.values.size ∧ it.position = 0 := by
  unfold Value.iteration? at h
  split at h <;> cases h <;> simp [Iteration.numbered]

/-- A new iterator belongs to the call that made it. -/
theorem Moves.newIteration {its : List Nat} (hkeys : it.keys.size = it.values.size)
    (hpos : it.position < it.values.size) :
    Moves h (h.newIteration it).2 its (h.iterations.size :: its) where
  others n _ hn := by
    simp only [Heap.newIteration]
    rw [Array.getElem?_push_lt hn, Array.getElem?_eq_getElem hn]
  origin n hn := by
    rcases List.mem_cons.1 hn with rfl | hn
    · exact .inr rfl
    · exact .inl hn
  nodup hnd hlt := List.nodup_cons.2 ⟨fun hmem => absurd (hlt _ hmem) (by omega), hnd⟩
  live _ hlive n hn := by
    rcases List.mem_cons.1 hn with rfl | hn
    · exact ⟨it, by simp [Heap.newIteration], hkeys, hpos⟩
    · obtain ⟨it', hit', hlive'⟩ := hlive n hn
      have hlt := (Array.getElem?_eq_some_iff.1 hit').1
      refine ⟨it', ?_, hlive'⟩
      simp only [Heap.newIteration]
      rw [Array.getElem?_push_lt hlt, ← hit', Array.getElem?_eq_getElem hlt]

theorem execute_iterate (op : i.op = .iterate) :
    Executes points i w f h (.value :: l)
      { fall := some (.iterator :: l), jump := some l, raised := some l } := by
  intro vs hst
  obtain ⟨v, vs, s, rfl, -, hs, hholds, hfit⟩ := hst.pop
  rw [iterators_value]
  cases hit : (h.deref v).iteration? with
  | none =>
    obtain ⟨e, hexec⟩ : ∃ e, execute i f h = some (.raise e (f.withStack s) h) := by
      simp [execute, stepData, op, hs, hit]
    exact .raise hexec rfl (hst.withStack hholds hfit) rfl (.refl _)
  | some it =>
    obtain ⟨hkeys, hzero⟩ := iteration?_sizes hit
    by_cases hdone : it.isDone
    · have hexec : execute i f h = some (.next ((f.withStack s).goto i.target) h) := by
        simp [execute, stepData, op, hs, hit, hdone]
      exact .jump hexec rfl (Inst.target_mem op rfl) ⟨hholds, hfit, hst.handler⟩ rfl (.refl _)
    · have hexec : execute i f h = some (.next ((f.withStack s).push (.iterator h.iterations.size))
          (h.newIteration it).2) := by
        simp [execute, stepData, op, hs, hit, hdone, Heap.newIteration]
      have hpos : it.position < it.values.size := by
        simpa [Iteration.isDone] using hdone
      have hfit' : Fits (h.newIteration it).2 (.iterator :: l)
          (.iterator h.iterations.size :: vs) :=
        fits_cons.2 ⟨_, vs, ⟨_, rfl, by simp [Heap.newIteration]⟩, hfit.mono (.newIteration h it),
          rfl⟩
      refine ⟨_, _, hexec, .falls rfl ⟨rfl, rfl⟩ rfl ⟨hholds.push _, hfit', ?_⟩, ?_⟩
      · simp only [Inst.watchAfter, op, reduceCtorEq, if_false]
        exact hst.handler
      · simpa [Step.heap] using Moves.newIteration hkeys hpos

/-- Advancing an iterator changes no other, and leaves it alive unless it is done. -/
theorem Moves.advance (its : List Nat) (hit : (h.advance n).iterations[n]? = some it) :
    Moves h (h.advance n) (n :: its) (if it.isDone then its else n :: its) where
  others m hm _ := by
    simp only [List.mem_cons, not_or] at hm
    simp [Heap.advance, Array.getElem?_modify, Ne.symm hm.1]
  origin m hm := by
    left
    split at hm
    · exact List.mem_cons_of_mem _ hm
    · exact hm
  nodup hnd _ := by
    split
    · exact (List.nodup_cons.1 hnd).2
    · exact hnd
  live hnd hlive m hm := by
    obtain ⟨hn, hnd⟩ := List.nodup_cons.1 hnd
    have hother : m ≠ n → h.Live m → (h.advance n).Live m := by
      rintro hne ⟨it', hit', hlive'⟩
      exact ⟨it', by simpa [Heap.advance, Array.getElem?_modify, Ne.symm hne] using hit', hlive'⟩
    by_cases hmn : m = n
    · subst hmn
      split at hm
      next => exact absurd hm hn
      next hdone =>
        obtain ⟨it', hit', hkeys, -⟩ := hlive m (by simp)
        simp only [Heap.advance, Array.getElem?_modify, if_true, hit', Option.map_some,
          Option.some.injEq] at hit
        subst hit
        refine ⟨{ it' with position := it'.position + 1 }, ?_, hkeys, ?_⟩
        · simp [Heap.advance, Array.getElem?_modify, hit']
        · simpa [Iteration.isDone] using hdone
    · refine hother hmn (hlive m ?_)
      split at hm
      · exact List.mem_cons_of_mem _ hm
      · exact hm

theorem execute_advance (op : i.op = .advance) :
    Executes points i w f h (.iterator :: l) { fall := some (.iterator :: l), jump := some l } := by
  intro vs hst
  obtain ⟨v, us, s, rfl, ⟨n, rfl, hn⟩, hs, hholds, hfit⟩ := hst.pop
  have hlt : n < (h.advance n).iterations.size := Nat.lt_of_lt_of_le hn (Heap.Grows.advance h n).2
  have hit := Array.getElem?_eq_getElem hlt
  have hmoves := Moves.advance (l.iterators us) hit
  rw [iterators_iterator]
  by_cases hdone : (h.advance n).iterations[n].isDone
  · have hexec : execute i f h =
        some (.next ((f.withStack s).goto i.target) (h.advance n)) := by
      simp [execute, stepData, op, hs, hit, hdone]
    rw [if_pos hdone] at hmoves
    exact ⟨_, _, hexec, .jumps rfl ⟨rfl, rfl⟩ (Inst.target_mem op rfl)
      ⟨hholds, hfit.mono (.advance h n), hst.handler⟩, hmoves⟩
  · have hexec : execute i f h = some (.next f (h.advance n)) := by
      simp [execute, stepData, op, hs, hit, hdone]
    rw [if_neg hdone, ← iterators_iterator l n us] at hmoves
    refine ⟨_, _, hexec, .falls rfl ⟨rfl, rfl⟩ rfl
      ⟨hst.stack, hst.fits.mono (.advance h n), ?_⟩, hmoves⟩
    simp only [Inst.watchAfter, op, reduceCtorEq, if_false]
    exact hst.handler

theorem execute_element (hst : f.Stands points h l w vs) (op : i.op = .key ∨ i.op = .element)
    (slot : l.kindAt? i.count = some .iterator) :
    (i.Exhausted f h (l.iterators vs) ∧ execute i f h = none) ∨
      Proceeds points i w { fall := some (.value :: l) } f h (l.iterators vs) (execute i f h) := by
  obtain ⟨ws, n, us, rfl, hslot, hn, hmem⟩ := hst.fits.iterator slot
  have hget := hst.stack.get?
  rw [← hslot] at hget
  have hit := Array.getElem?_eq_getElem hn
  have hcases : (∃ x, execute i f h = some (.next (f.push x) h)) ∨
      (¬ h.Live n ∧ execute i f h = none) := by
    rcases op with op | op
    · cases hkey : h.iterations[n].keys[h.iterations[n].position]? with
      | some x => exact .inl ⟨x, by simp [execute, stepData, op, hget, hit, hkey]⟩
      | none =>
        refine .inr ⟨?_, by simp [execute, stepData, op, hget, hit, hkey]⟩
        rintro ⟨it, hit', hkeys, hpos⟩
        cases Option.some.inj (hit.symm.trans hit')
        have := Array.getElem?_eq_none_iff.1 hkey
        omega
    · cases hval : h.iterations[n].values[h.iterations[n].position]? with
      | some x => exact .inl ⟨x, by simp [execute, stepData, op, hget, hit, hval]⟩
      | none =>
        refine .inr ⟨?_, by simp [execute, stepData, op, hget, hit, hval]⟩
        rintro ⟨it, hit', hkeys, hpos⟩
        cases Option.some.inj (hit.symm.trans hit')
        have := Array.getElem?_eq_none_iff.1 hval
        omega
  rcases hcases with ⟨x, hexec⟩ | ⟨hdead, hexec⟩
  · exact .inr (.fall hexec rfl (by rcases op with op | op <;> simp [op])
      (hst.push hst.fits x) rfl (by simp))
  · exact .inl ⟨⟨op, n, hmem, hget, hdead⟩, hexec⟩

/-! ### All instructions -/

/-- A typed instruction has a meaning, unless the call lacks captured values, or an iterator has
been moved past its end. -/
theorem Inst.Flows.execute (hflow : i.Flows captures l flow) (hst : f.Stands points h l w vs)
    (hl : (l.length : Int) < Func.addressLimit)
    (hinstalls : i.op = .install → ∀ t ∈ i.targets, ∃ base : Layout,
      base.HandledAt points t ∧ (base.length : Int) = i.count ∧ base <:+ l) :
    (Frame.execute i f h = none ∧
        (i.Exhausted f h (l.iterators vs) ∨ ¬ f.HasCaptured h captures)) ∨
      Proceeds points i w flow f h (l.iterators vs) (Frame.execute i f h) := by
  cases hflow with
  | element l op slot =>
    rcases execute_element hst op slot with ⟨hex, hnone⟩ | hgo
    · exact .inl ⟨hnone, .inl hex⟩
    · exact .inr hgo
  | push l op => exact .inr (execute_push op vs hst)
  | stringNew l op => exact .inr (execute_stringNew op vs hst)
  | enter l op => exact .inr (execute_enter op vs hst)
  | install l op => exact .inr (execute_install op (hinstalls op) vs hst)
  | load l op slot => exact .inr (execute_load op slot vs hst)
  | box l op slot => exact .inr (execute_box op slot vs hst)
  | store l op slot => exact .inr (execute_store op slot vs hst)
  | upvalue l op lower upper =>
    cases hv : f.captured? h i.count with
    | some v => exact .inr (execute_upvalue op hv vs hst)
    | none =>
      refine .inl ⟨by simp [Frame.execute, stepSlot, op, hv], .inr fun hcap => ?_⟩
      obtain ⟨v, hv'⟩ := hcap.captured? lower upper
      simp [hv] at hv'
  | assignUpvalue l op lower upper =>
    cases hv : f.captured? h i.count with
    | some v => exact .inr (execute_assignUpvalue op hv vs hst)
    | none =>
      refine .inl ⟨by simp [Frame.execute, stepSlot, op, hv], .inr fun hcap => ?_⟩
      obtain ⟨v, hv'⟩ := hcap.captured? lower upper
      simp [hv] at hv'
  | closure l op fn func sources =>
    cases hvalues : fn.upvalues.mapM (f.capture? h) with
    | some values => exact .inr (execute_closure op func hvalues vs hst)
    | none =>
      refine .inl ⟨by simp [Frame.execute, stepData, op, func, hvalues], .inr fun hcap => ?_⟩
      obtain ⟨values, hvalues', -⟩ :=
        exists_mapM fun u hu => capture?_isSome hst hcap (sources u hu)
      simp [hvalues] at hvalues'
  | jump l op => exact .inr (execute_jump op vs hst)
  | goto top l op count => exact .inr (execute_goto op count vs hst)
  | retry top l op count => exact .inr (execute_retry op count vs hst)
  | exit top l op count => exact .inr (execute_exit op count vs hst)
  | leave n l op count => exact .inr (execute_leave op count vs hst)
  | pop l op => exact .inr (execute_pop op vs hst)
  | dup l op => exact .inr (execute_dup op vs hst)
  | not l op => exact .inr (execute_not op vs hst)
  | test l op => exact .inr (execute_test op vs hst)
  | connective l op => exact .inr (execute_connective op vs hst)
  | switch l op table => exact .inr (execute_switch op table vs hst)
  | ret l op => exact .inr (execute_ret op vs hst)
  | raise l op => exact .inr (execute_raise op vs hst)
  | resume l op => exact .inr (execute_unsupported rfl (by simp [op]) vs hst)
  | suspend n l op count => exact .inr (execute_unsupported rfl (by simp [op]) vs hst)
  | through n l op count =>
    exact .inr (execute_unsupported rfl (by rcases op with op | op <;> simp [op]) vs hst)
  | collect n l op count => exact .inr (execute_collect op count vs hst)
  | quote n l op count e value => exact .inr (execute_quote op count value vs hst)
  | call n l op count => exact .inr (execute_call op count vs hst)
  | constCall n l op count => exact .inr (execute_constCall op count vs hst)
  | map n l op count =>
    refine .inr (execute_map op count ?_ vs hst)
    simp only [List.length_append, length_values] at hl
    omega
  | resolve l op name value => exact .inr (execute_resolve op value vs hst)
  | unpack n l op count => exact .inr (execute_unpack op count vs hst)
  | symbols l op => exact .inr (execute_symbols op vs hst)
  | stringAdd n l op count => exact .inr (execute_stringAdd op count vs hst)
  | stringChars l op => exact .inr (execute_stringChars op vs hst)
  | stringEnd l op => exact .inr (execute_stringEnd op vs hst)
  | iterate l op => exact .inr (execute_iterate op vs hst)
  | advance l op => exact .inr (execute_advance op vs hst)
  | catchOn n l op count => exact .inr (execute_catchOn op count vs hst)

end

end StagedScript
