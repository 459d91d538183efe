import StagedScript.Proofs.Compile.Ending
import StagedScript.Proofs.Compile.Rule
import StagedScript.Proofs.Sound.Run

/-!
# From one round to the next

After a round the compiler is at the start of another one, whose log has the marks of everything
that was emitted.  The instructions of a round raise errors only while the handler is active that
belongs to the innermost block with handlers around the expression of the round.
-/

variable {w : Waiting} {c : Construct} {block : Expr}

namespace StagedScript

/-- Handlers belong to the innermost block that has some. -/
inductive GuardedBy (marks : List Mark) : Option Construct → List Protected → Prop where
  | none : GuardedBy marks none []
  | some {c p ps} (h : InstallsAt marks c.expr c.start p) : GuardedBy marks (some c) (p :: ps)

/-- The active handler belongs to the innermost block with handlers around an expression. -/
inductive Handles (marks : List Mark) (o : Origin) : Watch Label → Prop where
  | off (h : o.handledBy? = none) : Handles marks o .off
  | at {c p} (h : o.handledBy? = some c) (hp : InstallsAt marks c.expr c.start p) :
      Handles marks o (.at p.handler)

/-- An instruction was emitted for a part of a body, and raises errors only while the right handler is
active. -/
structure Mark.Lexical (body : Expr) (marks : List Mark) (m : Mark) : Prop where
  occurs : Occurs body m.origin.around m.origin.expr
  handles : m.inst.op.raises = true → Handles marks m.origin m.point.watch

/-- The frame of a construct keeps only parts of its expression, and declarations that it may bring
into scope. -/
def Construct.Kept (marks : List Mark) (c : Construct) (p : Pin) : Prop :=
  Draft.Keeps ⟨c.expr, marks, [], ⟨c.expr, c.start, none, []⟩, c.frame, [p]⟩ c.frame

/-- The statements of a block have ended, with a jump.  The handler begins at the place after it. -/
def EndedAt (marks : List Mark) (bound : List (Label × Nat)) (block : Expr) (start : Nat) : Prop :=
  ∃ p k m, InstallsAt marks block start p ∧ marks[k]? = some m ∧ m.inst.op = .jump ∧
    m.origin.EndsStatements block start ∧ (p.handler, k + 1) ∈ bound

/-- The round is inside of the statements of a block, or has been given the value of one. -/
def Draft.Tries (d : Draft) (block : Expr) (start : Nat) : Prop :=
  (∃ c ∈ d.origin.around, c.isTried = true ∧ c.expr = block ∧ c.start = start) ∨
    (∃ b rest, d.origin.given = some (.statements b rest)) ∧ d.origin.expr = block ∧
      d.origin.start = start

/-- What is known about a function under construction is right. -/
structure Draft.Valid (d : Draft) : Prop where
  occurs : Occurs d.body d.origin.around d.origin.expr
  kept : List.Forall₂ (Construct.Kept d.past) d.origin.around d.pins.tail
  marks : ∀ m ∈ d.past, m.Lexical d.body d.past
  tried : ∀ m ∈ d.past, ∀ c ∈ m.origin.around, c.isTried = true →
    d.Tries c.expr c.start ∨ EndedAt d.past d.bound c.expr c.start

/-- A function that waits for the code of one inside of it, and what its frame keeps. -/
structure Outer.Valid (o : Outer) : Prop where
  draft : o.toDraft.Valid
  keeps : o.Keeps o.frame
  given : o.origin.given = some o.frame

/-- What is known at the start of a round is right. -/
structure Log.Valid (L : Log) : Prop where
  draft : L.toDraft.Valid
  here : Handles L.past L.origin L.here
  outer : ∀ o ∈ L.outer, o.Valid

/-! ### More instructions -/

section

variable {marks marks' : List Mark} (hmarks : marks <+: marks')

include hmarks

theorem InstallsAt.mono {start : Nat} {p : Protected}
    (h : InstallsAt marks block start p) : InstallsAt marks' block start p := by
  obtain ⟨m, hm, hinst⟩ := h
  obtain ⟨rest, rfl⟩ := hmarks
  refine ⟨m, ?_, hinst⟩
  rw [List.getElem?_append_left (List.getElem?_eq_some_iff.1 hm).1]
  exact hm

theorem EndedAt.mono {bound bound' : List (Label × Nat)} {start : Nat}
    (h : EndedAt marks bound block start) (hbound : bound ⊆ bound') :
    EndedAt marks' bound' block start := by
  obtain ⟨p, k, m, hinstalls, hm, hop, horigin, hplace⟩ := h
  obtain ⟨rest, rfl⟩ := hmarks
  refine ⟨p, k, m, hinstalls.mono (List.prefix_append _ _), ?_, hop, horigin, hbound hplace⟩
  rw [List.getElem?_append_left (List.getElem?_eq_some_iff.1 hm).1]
  exact hm

theorem Handles.mono {o : Origin} {w : Watch Label} (h : Handles marks o w) : Handles marks' o w := by
  cases h with
  | off h => exact .off h
  | «at» h hp => exact .at h (hp.mono hmarks)

theorem Mark.Lexical.mono {body : Expr} {m : Mark} (h : m.Lexical body marks) :
    m.Lexical body marks' :=
  ⟨h.occurs, fun hraises => (h.handles hraises).mono hmarks⟩

theorem Draft.Keeps.mono {d d' : Draft} (h : d.Keeps w) (hpast : d.past = marks)
    (hpast' : d'.past = marks') (hexpr : d'.origin.expr = d.origin.expr)
    (hstart : d'.origin.start = d.origin.start) (hown : d'.own = d.own) : d'.Keeps w := by
  subst hpast hpast'
  have has : ∀ {e : Expr}, d.Has e → d'.Has e := fun he => he.imp_left fun he => by rwa [hexpr]
  cases w with
  | statements b rest =>
    obtain ⟨hblock, hrest⟩ := h
    refine ⟨⟨by rw [hexpr]; exact hblock.expr, hblock.guarded, fun p hp => ?_⟩, by rwa [hexpr]⟩
    rw [hexpr, hstart]
    exact (hblock.installs p hp).mono hmarks
  | expansion span => exact (congrArg Expr.isCall hexpr).trans h
  | expanded span => exact (congrArg Expr.isCall hexpr).trans h
  | binding => exact fun id hid => hown ▸ h id hid
  | constantCode => exact fun id hid => hown ▸ h id hid
  | constantValue => exact fun id hid => hown ▸ h id hid
  | _ => exact fun e he => has (h e he)

theorem Construct.Kept.mono {p : Pin} (h : c.Kept marks p) : c.Kept marks' p :=
  Draft.Keeps.mono hmarks h rfl rfl rfl rfl rfl

end

/-- The expression of a construct is found around it. -/
theorem Occurs.outer {body e : Expr} {around : List Construct}
    (h : Occurs body (c :: around) e) : Occurs body around c.expr := by
  generalize hcs : c :: around = cs at h
  induction h with
  | body => cases hcs
  | part outer inner ih =>
    cases hcs
    exact outer
  | assigned outer ih => exact ih hcs

/-- The log after a round, with the marks of its instructions and the labels that are fixed. -/
def Log.after (L : Log) (new : List Mark) (bound : List (Label × Nat)) : Log :=
  { L with past := L.past ++ new, bound }

theorem Draft.Valid.after {d : Draft} {new : List Mark} {bound : List (Label × Nat)}
    {w : Watch Label} (h : d.Valid)
    (hnew : ∀ m ∈ new, m.origin = d.origin ∧ (m.inst.op.raises = true → m.point.watch = w))
    (hbound : d.bound ⊆ bound) (hw : Handles (d.past ++ new) d.origin w) :
    Draft.Valid { d with past := d.past ++ new, bound } := by
  have hmarks : d.past <+: d.past ++ new := List.prefix_append _ _
  refine ⟨h.occurs, h.kept.imp fun _ _ hc => hc.mono hmarks, fun m hm => ?_,
    fun m hm c hc htried => ?_⟩
  · obtain hm | hm := List.mem_append.1 hm
    · exact (h.marks m hm).mono hmarks
    · obtain ⟨horigin, hwatch⟩ := hnew m hm
      refine ⟨by rw [horigin]; exact h.occurs, fun hraises => ?_⟩
      rw [horigin, hwatch hraises]
      exact hw
  · obtain hm | hm := List.mem_append.1 hm
    · exact (h.tried m hm c hc htried).imp_right fun hended => hended.mono hmarks hbound
    · rw [(hnew m hm).1] at hc
      exact .inl (.inl ⟨c, hc, htried, rfl, rfl⟩)

theorem Log.Valid.after {L : Log} {new : List Mark} {bound : List (Label × Nat)} (h : L.Valid)
    (hnew : L.Emits new) (hbound : L.bound ⊆ bound) : (L.after new bound).Valid :=
  have hhere := h.here.mono (List.prefix_append L.past new)
  ⟨h.draft.after hnew hbound hhere, hhere, h.outer⟩

/-! ### The active handler -/

variable {L L' : Log} {E : Env} {y : Nesting} {cur : Cursor} {s : CompileState} {x x' : Context}
  {l k : Layout} {next : Next} {marks : List Mark}

/-- The handlers that a frame has made active. -/
def Waiting.guarded? : Waiting → Option Protected
  | .statements b _ => b.guarded
  | _ => none

theorem Waiting.exists_of_isStatements (h : w.isStatements = true) :
    ∃ b rest, w = .statements b rest := by
  cases w with
  | statements b rest => exact ⟨b, rest, rfl⟩
  | _ => cases h

/-- A statement may have brought names into scope. -/
theorem Waiting.Takes.declaring (h : w.Takes E x l x' k) {ids : List BindingId}
    (hids : ids ≠ [] → w.isStatements = true) : w.Takes E (x.declaring ids) l x' k := by
  by_cases hnil : ids = []
  · rw [hnil]
    exact h
  · have hw := hids hnil
    cases h with
    | @statements b rest _ _ vars lets defs own added hb hrest =>
      have := @Takes.statements E b rest _ _ vars lets defs own (ids ++ added) hb hrest
      rw [Context.declaring, List.append_assoc] at this
      exact this
    | _ => cases hw

theorem Waiting.Takes.guards (h : w.Takes E x l x' k) :
    x.guards = w.guarded?.toList ++ x'.guards := by
  cases h <;> rfl

/-- A block with handlers has made them active, and other constructs have not. -/
theorem Construct.Kept.guarded {p : Pin} (h : c.Kept marks p) :
    c.isTried = true ∧ (∃ p, c.frame.guarded? = some p ∧ InstallsAt marks c.expr c.start p) ∨
      c.isTried = false ∧ c.frame.guarded? = none := by
  obtain ⟨expr, start, frame⟩ := c
  cases frame with
  | statements b rest =>
    obtain ⟨⟨⟨span, vars, lets, defs, body, hexpr⟩, hguarded, hinstalls⟩, -⟩ := h
    have htried : Construct.isTried ⟨expr, start, .statements b rest⟩ = !b.handlers.isEmpty := by
      rw [show expr = .block span vars lets defs body b.handlers from hexpr]
      exact Bool.and_true _
    rw [htried, ← hguarded]
    cases hb : b.guarded with
    | none => exact .inr ⟨rfl, hb⟩
    | some p => exact .inl ⟨rfl, p, hb, hinstalls p hb⟩
  | _ => exact .inr ⟨Bool.and_false _, rfl⟩

/-- The frames of a function say which handlers are active. -/
theorem Resumes.guardedBy {around : List Construct} {last : Waiting} {ps : List Pin}
    (hkept : List.Forall₂ (Construct.Kept marks) around ps.tail)
    (h : Resumes E (around.map (·.frame) ++ [last]) ps x k) :
    GuardedBy marks (around.find? Construct.isTried) x.guards := by
  induction around generalizing ps x k with
  | nil =>
    obtain ⟨-, ⟨span, -, -, hguards⟩ | ⟨x', k', -, -, hnil⟩⟩ := h
    · rw [hguards]
      exact .none
    · exact hnil.elim
  | cons c around ih =>
    obtain ⟨-, ⟨span, -, hnil, -⟩ | ⟨x', k', htakes, -, hrest⟩⟩ := h
    · simp at hnil
    · obtain ⟨p, ps', hc, hkept, hps⟩ := List.forall₂_cons_left_iff.1 hkept
      rw [hps] at hrest
      rw [htakes.guards]
      -- a block with handlers is the innermost one, and others leave the search to what is around
      obtain ⟨htried, p, hp, hinstalls⟩ | ⟨htried, hnone⟩ := hc.guarded
      · rw [List.find?_cons_of_pos htried, hp]
        exact .some hinstalls
      · rw [List.find?_cons_of_neg (by simp [htried]), hnone]
        exact @ih x' k' (p :: ps') hkept hrest

theorem Inside.handles {ws : List Waiting} (hin : Inside L E ws x k)
    (hkept : List.Forall₂ (Construct.Kept L.past) L.origin.around L.pins.tail) :
    Handles L.past L.origin L.here := by
  have hguarded := (hin.frames ▸ hin.resumes).guardedBy hkept
  rw [← hin.here, Context.watch]
  change GuardedBy L.past L.origin.handledBy? x.guards at hguarded
  generalize x.guards = guards at hguarded
  generalize ho : L.origin.handledBy? = o at hguarded
  cases hguarded with
  | none => exact .off ho
  | some h => exact .at ho h

/-- At the start of a round, the right handler is the active one. -/
theorem Poised.handles (h : Poised L next s)
    (hkept : List.Forall₂ (Construct.Kept L.past) L.origin.around L.pins.tail) :
    Handles L.past L.origin L.here := by
  cases h with
  | compile _ ha => exact ha.toInside.handles hkept
  | statement _ ha => exact ha.toInside.handles hkept
  | give _ _ _ _ _ hin => exact hin.handles hkept
  | last _ _ _ _ hlast =>
    rw [Draft.here, hlast.2.2]
    exact .off (by rw [Origin.handledBy?, hlast.1]; rfl)
  | answer _ hw =>
    obtain ⟨x', k, -, hin⟩ := hw.inside
    exact hin.handles hkept
  | wait _ hw =>
    obtain ⟨x', k, -, hin⟩ := hw.inside
    exact hin.handles hkept

/-! ### The next round -/

namespace Log

variable (L)

def again : Log := { L with began := L.past.length }

def opened (w : Waiting) (e : Expr) (pin : Pin) : Log :=
  { L.again with
    origin := ⟨e, L.past.length, none, ⟨L.origin.expr, L.origin.start, w⟩ :: L.origin.around⟩
    pins := pin :: L.pins }

def replaced (e : Expr) : Log :=
  { L.again with origin := ⟨e, L.past.length, none, L.origin.around⟩ }

def closed (c : Construct) (around : List Construct) : Log :=
  { L.again with origin := ⟨c.expr, c.start, some c.frame, around⟩, pins := L.pins.tail }

def ended : Log := { L.again with origin := ⟨L.body, 0, none, []⟩, pins := [] }

def asked (w : Waiting) : Log := { L.again with toDraft := L.giving w }

/-- The log of the round after one that emitted all marked instructions, with the frames of the
function that it goes on with. -/
inductive Moves : Next → List Waiting → Log → Prop where
  | opened {w e pin p} (h : L.Opens w e) (hp : L.pins.head? = some p) :
      Moves (.compile e) (w :: L.frames) (L.opened w e pin)
  | replaced {span blank e} (h : L.origin.expr = .assign span (.blank blank) e) :
      Moves (.compile e) L.frames (L.replaced e)
  | closed {c around v} (h : L.origin.around = c :: around) :
      Moves (.give v) L.frames (L.closed c around)
  | ended {v} (h : L.origin.around = []) : Moves (.give v) L.frames L.ended
  | asked {w call} : Moves (.wait call) (w :: L.frames) (L.asked w)
  | begun {w records body span pin} (h : L.Keeps w) :
      Moves (.compile body) [.finish span false] (L.inner w records body span pin)
  | finished {o outer fn new bound} (houter : L.outer = o :: outer) (hlast : L.IsLast)
      (hone : L.past.length = L.began + 1) (hmarked : fn.Marked L.past L.bound L.finished)
      (hnew : Emits (.afterInner o outer (fn :: L.finished)) new) (hbound : o.bound ⊆ bound) :
      Moves (.give (.func fn)) (o.frame :: o.frames)
        ((afterInner o outer (fn :: L.finished)).after new bound).again

theorem withMarks_after (new new' : List Mark) (bound : List (Label × Nat)) :
    (L.withMarks new).after new' bound = L.after (new ++ new') bound := by
  simp [withMarks, after]

/-- After a statement of a block with handlers comes another one, or the statements end. -/
def Proceeds (ws : List Waiting) (L' : Log) : Prop :=
  ∀ b rest, L.origin.given = some (.statements b rest) → L.origin.expr.hasHandlers = true →
    ∃ w, ws = w :: L.frames ∧
      (w.isStatements = true ∨ EndedAt L'.past L'.bound L.origin.expr L.origin.start)

variable {L}

theorem frames_ne_nil (d : Draft) : d.frames ≠ [] := by
  simp [Draft.frames]

/-- The statements of blocks go on, or they end, so those that have been compiled are still known. -/
theorem Valid.tried (h : L.Valid) (hpast : L'.past = L.past) (hbound : L'.bound = L.bound)
    (htries : ∀ block start, block.hasHandlers = true → L.Tries block start →
      L'.Tries block start ∨ EndedAt L'.past L'.bound block start) :
    ∀ m ∈ L'.past, ∀ c ∈ m.origin.around, c.isTried = true →
      L'.Tries c.expr c.start ∨ EndedAt L'.past L'.bound c.expr c.start := by
  intro m hm c hc htried
  obtain htry | hended := h.draft.tried m (hpast ▸ hm) c hc htried
  · exact htries _ _ (Bool.and_eq_true_iff.1 htried).1 htry
  · rw [hpast, hbound]
    exact .inr hended

theorem Proceeds.elim {ws : List Waiting} (h : L.Proceeds ws L') {start : Nat}
    (hhandlers : block.hasHandlers = true)
    (hgiven : ∃ b rest, L.origin.given = some (.statements b rest)) (hexpr : L.origin.expr = block)
    (hstart : L.origin.start = start) :
    ∃ w, ws = w :: L.frames ∧
      (w.isStatements = true ∨ EndedAt L'.past L'.bound block start) := by
  subst hexpr hstart
  obtain ⟨b, rest, hgiven⟩ := hgiven
  exact h b rest hgiven hhandlers

/-- Rounds keep logs valid. -/
theorem Moves.valid {ws : List Waiting} (hmoves : L.Moves next ws L') (h : L.Valid)
    (hproceeds : L.Proceeds ws L') (hnext : Poised L' next s) : L'.Valid := by
  have hd := h.draft
  cases hmoves with
  | @opened w e pin p hopens hp =>
    have hw : Construct.Kept L.past ⟨L.origin.expr, L.origin.start, w⟩ p :=
      hopens.keeps.mono (List.prefix_refl L.past) rfl rfl rfl rfl (by rw [Draft.own, Draft.own, hp]; rfl)
    have hkept := List.Forall₂.cons hw hd.kept
    rw [← List.eq_cons_of_mem_head? hp] at hkept
    refine ⟨⟨.part hd.occurs hopens.part, hkept, hd.marks, h.tried rfl rfl ?_⟩,
      hnext.handles hkept, h.outer⟩
    -- either a frame around tries the statements, or the frame of this round does
    rintro block start hhandlers (⟨c, hc, htry⟩ | ⟨hgiven, hexpr, hstart⟩)
    · exact .inl (.inl ⟨c, List.mem_cons_of_mem _ hc, htry⟩)
    · obtain ⟨w', hws, hw' | hended⟩ := hproceeds.elim hhandlers hgiven hexpr hstart
      · obtain rfl : w = w' := (List.cons.inj hws).1
        refine .inl (.inl ⟨_, List.mem_cons_self, ?_, hexpr, hstart⟩)
        exact Bool.and_eq_true_iff.2 ⟨(congrArg Expr.hasHandlers hexpr).trans hhandlers, hw'⟩
      · exact .inr hended
  | replaced hassign =>
    refine ⟨⟨.assigned (hassign ▸ hd.occurs), hd.kept, hd.marks, h.tried rfl rfl ?_⟩,
      hnext.handles hd.kept, h.outer⟩
    rintro block start hhandlers (htry | ⟨-, rfl, -⟩)
    · exact .inl (.inl htry)
    · simp [hassign, Expr.hasHandlers] at hhandlers
  | @closed c around v haround =>
    have hoccurs := hd.occurs
    have hkept := hd.kept
    rw [haround] at hoccurs hkept
    obtain ⟨p, ps, -, hkept, hps⟩ := List.forall₂_cons_left_iff.1 hkept
    replace hkept : List.Forall₂ (Construct.Kept L.past) around L.pins.tail.tail := by rwa [hps]
    refine ⟨⟨hoccurs.outer, hkept, hd.marks, h.tried rfl rfl ?_⟩, hnext.handles hkept, h.outer⟩
    rintro block start hhandlers (⟨c', hc', htry⟩ | ⟨hgiven, hexpr, hstart⟩)
    · rw [haround] at hc'
      obtain rfl | hc' := List.mem_cons.1 hc'
      · refine .inl (.inr ⟨?_, htry.2⟩)
        obtain ⟨b, rest, hframe⟩ := Waiting.exists_of_isStatements (Bool.and_eq_true_iff.1 htry.1).2
        exact ⟨b, rest, congrArg some hframe⟩
      · exact .inl (.inl ⟨c', hc', htry⟩)
    -- a block goes on with a frame of its own, but no frame was added
    · obtain ⟨w, hws, -⟩ := hproceeds.elim hhandlers hgiven hexpr hstart
      exact absurd (congrArg List.length hws) (by simp)
  | ended haround =>
    refine ⟨⟨.body, .nil, hd.marks, h.tried rfl rfl ?_⟩, hnext.handles .nil, h.outer⟩
    rintro block start hhandlers (⟨c, hc, -⟩ | ⟨hgiven, hexpr, hstart⟩)
    · rw [haround] at hc
      cases hc
    · obtain ⟨w, hws, -⟩ := hproceeds.elim hhandlers hgiven hexpr hstart
      exact absurd (congrArg List.length hws) (by simp)
  | @asked w call =>
    refine ⟨⟨hd.occurs, hd.kept, hd.marks, h.tried rfl rfl ?_⟩, hnext.handles hd.kept, h.outer⟩
    rintro block start hhandlers (htry | ⟨hgiven, hexpr, hstart⟩)
    · exact .inl (.inl htry)
    · obtain ⟨w', hws, hw' | hended⟩ := hproceeds.elim hhandlers hgiven hexpr hstart
      · obtain rfl : w = w' := (List.cons.inj hws).1
        obtain ⟨b, rest, rfl⟩ := Waiting.exists_of_isStatements hw'
        exact .inl (.inr ⟨⟨b, rest, rfl⟩, hexpr, hstart⟩)
      · exact .inr hended
  | @begun w records body span pin hkeeps =>
    have houter : Outer.Valid ⟨L.giving w, w, records⟩ := by
      refine ⟨⟨hd.occurs, hd.kept, hd.marks, fun m hm c hc htried => ?_⟩,
        hkeeps.mono (List.prefix_refl L.past) rfl rfl rfl rfl rfl, rfl⟩
      obtain (htry | ⟨hgiven, hexpr, hstart⟩) | hended := hd.tried m hm c hc htried
      · exact .inl (.inl htry)
      · obtain ⟨w', hws, -⟩ :=
          hproceeds.elim (Bool.and_eq_true_iff.1 htried).1 hgiven hexpr hstart
        exact absurd (List.cons.inj hws).2.symm (frames_ne_nil _)
      · exact .inr hended
    exact ⟨⟨.body, .nil, List.forall_mem_nil _, List.forall_mem_nil _⟩, hnext.handles .nil,
      List.forall_mem_cons.2 ⟨houter, h.outer⟩⟩
  | @finished o outer fn new bound houter hlast hone hmarked hnew hbound =>
    obtain ⟨ho, hrest⟩ := List.forall_mem_cons.1 (houter ▸ h.outer)
    have hhere := hnext.handles (ho.draft.kept.imp fun _ _ hc => hc.mono (List.prefix_append _ _))
    exact ⟨ho.draft.after hnew hbound hhere, hhere, hrest⟩

end Log

/-- All labels of the current function that have been fixed are known. -/
def Log.Places (L : Log) (s : CompileState) : Prop :=
  ∀ fn rest, s.functions = fn :: rest → fn.builder.places ⊆ L.bound

/-- All instructions so far get marks, and all labels that have been fixed are known. -/
theorem At.exists_marks (h : At L E y cur s) :
    ∃ new bound, L.Emits new ∧ L.bound ⊆ bound ∧ ∀ {L' : Log}, L'.past = L.past ++ new →
      L'.bound = bound → L'.outer = L.outer → L'.finished = L.finished →
      L'.began = L'.past.length → At L' E y cur s ∧ L'.Fresh s ∧ L'.Places s := by
  obtain ⟨⟨fn, rest, hs, hy, htyped, hrest⟩, hbindings, hheap, hcounts⟩ := h
  obtain ⟨new, hnew, hlength, hmarks⟩ := htyped.exists_marks
  have hknown : L.bound ⊆ fn.builder.places := fun e he => Builder.mem_places.2 (htyped.bound e he)
  refine ⟨new, fn.builder.places, hnew, hknown, fun {L'} hpast hbound houter hfinished hbegan => ?_⟩
  have hL' : fn.Typed L' E cur :=
    hmarks hpast (fun e he => Builder.mem_places.1 (hbound ▸ he))
      (by rw [hfinished]; exact List.Subset.refl _)
  refine ⟨⟨⟨fn, rest, hs, hy, hL', ?_⟩, hbindings, hheap, hcounts⟩,
    ⟨hbegan, fn, rest, hs, by rw [hpast, hlength]⟩, ?_⟩
  · rw [houter, hfinished]
    exact hrest
  · rintro fn' rest' hs'
    cases hs.symm.trans hs'
    rw [hbound]
    exact List.Subset.refl _

/-- A function is finished with the instructions of a round. -/
structure Log.Finishes (L : Log) (s : CompileState) (fn : Func) : Prop where
  last : L.IsLast
  marks : ∃ new ws, L.Emits new ∧ (L.withMarks new).Waits ws s ∧
    fn.Marked (L.withMarks new).past L.bound L.finished
  heap : s.heap.Sound
  sound : fn.Sound s.heap.capturedCount?
  params : fn.params = []

theorem At.heap_sound (h : At L E y cur s) : s.heap.Sound := by
  rw [Heap.Sound, ← h.counts]
  exact h.heap

/-- The compiler is at the start of another round. -/
structure Log.Continues (L L' : Log) (new : List Mark) (bound : List (Label × Nat))
    (ws : List Waiting) (next : Next) (s : CompileState) : Prop where
  emits : L.Emits new
  known : L.bound ⊆ bound
  moves : (L.after new bound).Moves next ws L'
  poised : Poised L' next s
  fresh : L'.Fresh s
  waits : L'.Waits ws s
  places : ∀ w, ws = w :: L.frames → L'.Places s

/-- How a round ends: the outermost function is finished, or the compiler is at the start of
another round. -/
def Log.Ends (L : Log) (next : Next) (s : CompileState) : Prop :=
  (∃ fn, next = .done fn ∧ L.Finishes s fn) ∨
    ∃ new bound ws L', L.Continues L' new bound ws next s

/-- A value is given to the innermost frame in the next round. -/
theorem Inside.gives {v : Value} {ids : List BindingId}
    (h : At L E y (.live ⟨.value :: k, x.watch⟩) s) (hin : Inside L E y.waiting x k)
    (hx : (x.declaring ids).Describes E y) (hids : ∀ id ∈ ids, id ∈ L.own)
    (hkept : List.Forall₂ (Construct.Kept L.past) L.origin.around L.pins.tail) :
    L.Ends (.give v) s := by
  obtain ⟨new, bound, hnew, hbound, hmarks⟩ := h.exists_marks
  have hframes : y.waiting = L.origin.around.map (·.frame) ++ [L.last] := hin.frames
  have hres := hin.resumes
  rw [hframes] at hres
  cases haround : L.origin.around with
  | nil =>
    rw [haround] at hres hframes
    obtain ⟨-, ⟨span, hlast, -, -⟩ | ⟨x', k', -, -, hnil⟩⟩ := hres
    · obtain ⟨h, hfresh, hplaces⟩ := @hmarks (L.after new bound).ended rfl rfl rfl rfl rfl
      have hy : y.waiting = [.finish span E.isRoot] := by
        rw [hframes, hlast]
        rfl
      exact .inr ⟨new, bound, _, _, hnew, hbound, .ended haround,
        .last (x := x.declaring ids) h hx hin.fits.floor hy ⟨rfl, rfl, rfl⟩, hfresh,
        h.waits hfresh.2 hin.frames,
        fun _ _ => hplaces⟩
    · exact hnil.elim
  | cons c around =>
    rw [haround] at hres hframes hkept
    obtain ⟨⟨p, hp, hmatches⟩, ⟨span, -, hnil, -⟩ | ⟨x', k', htakes, hfits, hres⟩⟩ := hres
    · simp at hnil
    · obtain ⟨h, hfresh, hplaces⟩ := @hmarks ((L.after new bound).closed c around) rfl rfl rfl rfl rfl
      obtain ⟨p', ps, hkeeps, -, hps⟩ := List.forall₂_cons_left_iff.1 hkept
      -- only a statement brings names into scope for what comes after it
      have hstatements : ids ≠ [] → c.frame.isStatements = true := fun hne => hmatches.own fun hnil => by
        obtain ⟨id, hid⟩ := List.exists_mem_of_ne_nil ids hne
        have := hids id hid
        rw [Draft.own, Option.mem_def.1 hp, Option.elim_some, hnil] at this
        cases this
      refine .inr ⟨new, bound, _, _, hnew, hbound, .closed haround,
        .give (x := x.declaring ids) h hx hin.fits.floor hframes
        (htakes.declaring hstatements) ⟨hfits, hres, rfl⟩ ?_ rfl, hfresh,
        h.waits hfresh.2 hin.frames, fun _ _ => hplaces⟩
      refine Draft.Keeps.mono (List.prefix_append L.past new) hkeeps rfl rfl rfl rfl ?_
      exact congrArg (·.head?.elim [] (·.own)) hps

theorem Pushed.around {e : Expr} {pin : Pin} (hw : Pushed L E y w x l) (hpin : pin.Matches w x)
    (new : List Mark) (bound : List (Label × Nat)) :
    Around ((L.after new bound).opened w e pin) E { y with waiting := w :: y.waiting } x l := by
  obtain ⟨x', k, htakes, hin⟩ := hw.inside
  exact ⟨⟨hw.fits, ⟨⟨pin, rfl, hpin⟩, .inr ⟨x', k, htakes, hin.fits, hin.resumes⟩⟩,
    congrArg (w :: ·) hin.frames⟩, hw.describes.withWaiting _⟩

theorem Pushed.pin (hw : Pushed L E y w x l) : ∃ p, L.pins.head? = some p := by
  obtain ⟨x', k, -, hin⟩ := hw.inside
  exact hin.pin.imp fun _ hp => hp.1

theorem Draft.Opens.after {e : Expr} (h : L.Opens w e) (new : List Mark)
    (bound : List (Label × Nat)) : (L.after new bound).Opens w e :=
  ⟨h.keeps.mono (List.prefix_append L.past new) rfl rfl rfl rfl rfl, h.part⟩

theorem Ready.moves (h : Ready L next s) (hvalid : L.Valid) : L.Ends next s := by
  induction h with
  | @compile L E y w x l s e h hw hopens he =>
    obtain ⟨new, bound, hnew, hbound, hmarks⟩ := h.exists_marks
    obtain ⟨h, hfresh, hplaces⟩ := @hmarks ((L.after new bound).opened w e ⟨x.toRecords, []⟩)
      rfl rfl rfl rfl rfl
    have hpin : Pin.Matches ⟨x.toRecords, []⟩ w x := ⟨rfl, absurd rfl⟩
    have ha := hw.around (e := e) hpin new bound
    obtain ⟨p, hp⟩ := hw.pin
    exact .inr ⟨new, bound, _, _, hnew, hbound, .opened (hopens.after new bound) hp,
      .compile h ha rfl rfl he, hfresh, h.waits hfresh.2 ha.frames, fun _ _ => hplaces⟩
  | @statement L E y w x l s e vars lets defs h hw hopens hstatements hlevel he =>
    obtain ⟨new, bound, hnew, hbound, hmarks⟩ := h.exists_marks
    obtain ⟨h, hfresh, hplaces⟩ := @hmarks
      ((L.after new bound).opened w e ⟨x.toRecords, e.own y.reserved⟩) rfl rfl rfl rfl rfl
    have hpin : Pin.Matches ⟨x.toRecords, e.own y.reserved⟩ w x := ⟨rfl, fun _ => hstatements⟩
    have ha := hw.around (e := e) hpin new bound
    obtain ⟨p, hp⟩ := hw.pin
    exact .inr ⟨new, bound, _, _, hnew, hbound, .opened (hopens.after new bound) hp,
      .statement h ha rfl rfl hlevel he, hfresh, h.waits hfresh.2 ha.frames, fun _ _ => hplaces⟩
  | @assigned L E y x k s span blank e h ha hown hexpr he =>
    obtain ⟨new, bound, hnew, hbound, hmarks⟩ := h.exists_marks
    obtain ⟨h, hfresh, hplaces⟩ := @hmarks ((L.after new bound).replaced e) rfl rfl rfl rfl rfl
    exact .inr ⟨new, bound, _, _, hnew, hbound, .replaced hexpr,
      .compile h ⟨⟨ha.fits, ha.resumes, ha.frames⟩, ha.describes⟩ hown rfl he, hfresh,
      h.waits hfresh.2 ha.frames, fun _ _ => hplaces⟩
  | give h hin hx hids => exact hin.gives h hx hids hvalid.draft.kept
  | @wait L E y w x l s call h hw hkeeps hhead hfn hargs =>
    obtain ⟨new, bound, hnew, hbound, hmarks⟩ := h.exists_marks
    obtain ⟨h, hfresh, hplaces⟩ := @hmarks ((L.after new bound).asked w) rfl rfl rfl rfl rfl
    obtain ⟨x', k, hawaits, hin⟩ := hw.inside
    refine .inr ⟨new, bound, _, _, hnew, hbound, .asked, .wait h
      ⟨hw.describes, hw.waiting, x', k, hawaits, hin.fits, hin.resumes, hin.frames⟩
      ?_ rfl hhead hfn hargs, hfresh, h.waits hfresh.2 hw.waiting, fun _ _ => hplaces⟩
    exact hkeeps.mono (List.prefix_append L.past new) rfl rfl rfl rfl rfl
  | @begin L E y w x k s new records body span L' hL' h ha hfresh hnew hkeeps hbody =>
    subst hL'
    have hframes : y.waiting = [.finish span false] := ha.frames
    refine .inr ⟨new, L.bound, _, _, hnew, List.Subset.refl _,
      .begun (hkeeps.mono (List.prefix_append L.past new) rfl rfl rfl rfl rfl),
      .compile h ha rfl rfl hbody, hfresh, h.waits hfresh.2 hframes, fun w' hws => ?_⟩
    exact absurd (List.cons.inj hws).2.symm (Log.frames_ne_nil _)
  | @finish L E y x l s new o outer fn h hw houter hnew hlast hone hmarked hfn hcapture =>
    obtain ⟨new', bound, hnew', hbound, hmarks⟩ := h.exists_marks
    obtain ⟨h, hfresh, hplaces⟩ := @hmarks
      ((Log.afterInner o outer (fn :: L.finished)).after new' bound).again rfl rfl rfl rfl rfl
    obtain ⟨ho, -⟩ := List.forall_mem_cons.1 (houter ▸ hvalid.outer)
    obtain ⟨x', k, hawaits, hin⟩ := hw.inside
    refine .inr ⟨new, L.bound, _, _, hnew, List.Subset.refl _,
      .finished houter hlast hone hmarked hnew' hbound, .answer h
      ⟨hw.describes, hw.waiting, x', k, hawaits, hin.fits, hin.resumes, hin.frames⟩
      (ho.keeps.mono (List.prefix_append o.past new') rfl rfl rfl rfl rfl) ho.given hfn ?_, hfresh,
      h.waits hfresh.2 hw.waiting, fun _ _ => hplaces⟩
    rintro _ ⟨⟩ - - -
    exact ⟨List.mem_cons_self, hcapture⟩
  | done h hnew hlast hsize hmarked hfn hparams =>
    obtain ⟨fn, rest, hs, hsize⟩ := hsize
    obtain ⟨fn', rest', hs', -, -, hrest⟩ := h.functions
    cases hs.symm.trans hs'
    exact .inl ⟨_, rfl, hlast, ⟨_, _, hnew, ⟨fn, rest, hs, rfl, hsize, hrest.waits⟩, hmarked⟩,
      h.heap_sound, h.counts ▸ hfn, hparams⟩
  | @later L next s new hnew h ih =>
    obtain ⟨fn, rfl, hlast, ⟨new', ws, hnew', hwaits, hmarked⟩, hheap, hsound, hparams⟩ |
      ⟨new', bound, ws, L', hnext⟩ := ih (hvalid.after hnew (List.Subset.refl _))
    · refine .inl ⟨fn, rfl, hlast, ⟨new ++ new', ws, List.forall_mem_append.2 ⟨hnew, hnew'⟩, ?_, ?_⟩,
        hheap,
        hsound, hparams⟩
      · rwa [Log.Waits, Log.withMarks, ← List.append_assoc]
      · rwa [Log.withMarks, ← List.append_assoc]
    · refine .inr ⟨new ++ new', bound, ws, L', { hnext with
        emits := List.forall_mem_append.2 ⟨hnew, hnext.emits⟩
        moves := ?_ }⟩
      rw [← Log.withMarks_after]
      exact hnext.moves

/-! ### Statements -/

theorem Poised.at (h : Poised L next s) : ∃ E y cur, At L E y cur s := by
  cases h <;> exact ⟨_, _, _, ‹At ..›⟩

/-- A round for another expression is not given the value of a statement. -/
theorem Log.Proceeds.of_given_eq_none {ws : List Waiting} (h : L.origin.given = none) :
    L.Proceeds ws L' := by
  intro b rest hgiven
  rw [h] at hgiven
  cases hgiven

section

variable {new : List Mark} {bound : List (Label × Nat)} {ws : List Waiting}
  (h : L.Continues L' new bound ws next s)

include h

theorem Log.Continues.exists_mark {fn : FunctionState} {fns : List FunctionState}
    (hs : s.functions = fn :: fns) {k : Nat} {i : Inst} (hi : fn.builder.insts[k]? = some i) :
    ∃ m, L'.past[k]? = some m ∧ m.inst = i := by
  obtain ⟨E, y, cur, hat⟩ := h.poised.at
  obtain ⟨fn₁, fns₁, hs₁, -, htyped, -⟩ := hat.functions
  obtain ⟨-, fn₂, fns₂, hs₂, hsize⟩ := h.fresh
  cases hs.symm.trans hs₁
  cases hs.symm.trans hs₂
  have hk := (Array.getElem?_eq_some_iff.1 hi).1
  obtain ⟨m, hm⟩ : ∃ m, L'.past[k]? = some m := ⟨_, List.getElem?_eq_getElem (by omega)⟩
  obtain ⟨pts, -, hlog, -⟩ := htyped.code
  exact ⟨m, hm, Option.some.inj ((hlog.past k m hm).1.symm.trans hi)⟩

theorem Log.Continues.proceeds {settings : Settings} {s₀ : CompileState} {v : Value}
    (hrun : Compiling.resume v settings s₀ = .ok next s) (hpoised : Poised L (.give v) s₀)
    (hfresh : L.Fresh s₀) : (L.after new bound).Proceeds ws L' := by
  intro b rest hgiven hhandlers
  change L.origin.given = _ at hgiven
  cases hpoised with
  | @give E y w ws₀ x x' l k _ _ hat hx _ hy hw hin hkeeps hw₀ =>
    obtain rfl : w = .statements b rest := Option.some.inj (hw₀.symm.trans hgiven)
    obtain ⟨⟨span, vars, lets, defs, body, hexpr⟩, hguarded, hinstalls⟩ := hkeeps.1
    have hblock : L.origin.expr.hasHandlers = !b.handlers.isEmpty := by
      rw [hexpr]
      rfl
    obtain ⟨p, hp⟩ : ∃ p, b.guarded = some p := by
      rw [← Option.isSome_iff_exists, hguarded, ← hblock]
      exact hhandlers
    obtain ⟨fn, fns, hs, hfn, htyped, -⟩ := hat.functions
    obtain ⟨-, fn', fns', hs', hsize⟩ := hfresh
    cases hs.symm.trans hs'
    have hlabel : p.handler < fn.builder.aims.size := by
      rw [htyped.aims_size]
      cases hw with
      | statements hb =>
        exact (List.getElem?_eq_some_iff.1 (hb.guarded p hp).1).1
    have hws : fn.waiting = .statements b rest :: L.frames := by
      rw [← hin.frames, ← hy, ← hfn]
      rfl
    have hne : b.handlers ≠ [] := by
      intro hnil
      rw [hnil] at hblock
      exact absurd (hblock.symm.trans hhandlers) nofun
    obtain ⟨⟨e, rfl⟩, w, b', ⟨fn₁, fns₁, hs₁, hws₁, hgrows⟩, hnext⟩ :=
      Compiling.resume_tops hs hws hp hlabel hne v next s hrun
    obtain ⟨fn₂, fns₂, hs₂, hws₂, -, -⟩ := h.waits
    cases hs₁.symm.trans hs₂
    obtain rfl : ws = w :: L.frames := hws₂.symm.trans hws₁
    refine ⟨w, rfl, hnext.imp_right ?_⟩
    rintro ⟨rfl, n, i, hn, hi, hop, haim⟩
    have hpast : L'.past = L.past ++ new := by
      generalize hws : w :: L.frames = ws at h
      cases h.moves with
      | opened => rfl
      | replaced => rfl
      | begun => exact absurd (List.cons.inj hws).2 (Log.frames_ne_nil _)
    obtain ⟨m, hm, rfl⟩ := h.exists_mark hs₁ (hgrows.insts n i hi)
    have hplace : (p.handler, n + 1) ∈ L'.bound :=
      h.places w rfl fn₁ fns₁ hs₁ (Builder.mem_places.2 (hgrows.aims _ _ haim))
    refine ⟨p, n, m, ?_, hm, hop, ?_, hplace⟩
    · rw [hpast]
      exact (hinstalls p hp).mono (List.prefix_append _ _)
    · -- the jump comes after the instructions of earlier rounds
      rw [hpast, List.getElem?_append_right (by omega)] at hm
      rw [(h.emits m (List.mem_of_getElem? hm)).1]
      exact ⟨rfl, rfl, b, hgiven⟩
  | last _ _ _ _ hlast =>
    rw [hlast.2.1] at hgiven
    cases hgiven
  | answer _ hw _ hw₀ =>
    obtain rfl := Option.some.inj (hw₀.symm.trans hgiven)
    obtain ⟨x', k, hawaits, -⟩ := hw.inside
    cases hawaits

end

/-! ### Rounds -/

/-- What the compiler does in a round. -/
def Next.action? : Next → Option (Compiling Next)
  | .compile e => some (Compiling.dispatch e)
  | .give v => some (Compiling.resume v)
  | .wait _ | .done _ => none

structure Log.Starts (L : Log) (next : Next) (s : CompileState) : Prop where
  valid : L.Valid
  poised : Poised L next s
  fresh : L.Fresh s

section

variable {settings : Settings} {action : Compiling Next} (h : L.Starts next s)
  (haction : next.action? = some action)

include h haction

theorem Log.Starts.acts (hglobals : settings.globals.Sound) : Runs settings action s (Ready L) := by
  obtain ⟨-, hpoised, hfresh⟩ := h
  cases next with
  | compile e =>
    cases haction
    exact Compiling.dispatch_poised_ready hglobals hpoised hfresh
  | give v =>
    cases haction
    exact Compiling.resume_ready hpoised hfresh
  | _ => cases haction

theorem Log.Starts.continues {next' : Next} {s' : CompileState} {new : List Mark}
    {bound : List (Label × Nat)} {ws : List Waiting} (hrun : action settings s = .ok next' s')
    (hnext : L.Continues L' new bound ws next' s') : L'.Starts next' s' := by
  obtain ⟨hvalid, hpoised, hfresh⟩ := h
  refine ⟨hnext.moves.valid (hvalid.after hnext.emits hnext.known) ?_ hnext.poised, hnext.poised,
    hnext.fresh⟩
  cases next with
  | compile e =>
    cases hpoised with
    | compile _ _ _ horigin => exact .of_given_eq_none (congrArg Origin.given horigin)
    | statement _ _ _ horigin => exact .of_given_eq_none (congrArg Origin.given horigin)
  | give v =>
    cases haction
    exact hnext.proceeds hrun hpoised hfresh
  | _ => cases haction

end

end StagedScript
