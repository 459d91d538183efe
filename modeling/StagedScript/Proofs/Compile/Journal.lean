import StagedScript.Proofs.Compile.Round

/-!
# The journal of a compilation

The journal follows the rounds of a compilation from the states between them, and its records agree
with the logs: for every instruction of a function, the record has the origin of its mark.
-/

variable {bound : List (Label × Nat)}

namespace StagedScript

/-- The constructs around an expression, with the frames that have been pushed for it. -/
def Draft.constructs (d : Draft) (pushed : List Waiting) : List Construct :=
  pushed.map (⟨d.origin.expr, d.origin.start, ·⟩) ++ d.origin.around

def Draft.record (d : Draft) (constructs : List Construct) : Record :=
  ⟨d.body, constructs, d.past.map (·.origin)⟩

def Outer.record (o : Outer) : Record := o.toDraft.record (o.constructs [o.frame])

/-- A finished function consists of recorded instructions, which raise errors only while the right
handlers are active, and these begin where the statements of their blocks have ended. -/
def Func.Recorded (fn : Func) (r : Record) (finished : List Func) : Prop :=
  ∃ marks bound, r.origins = marks.map (·.origin) ∧ fn.Marked marks bound finished ∧
    ∀ m ∈ marks, m.Lexical r.body marks ∧
      ∀ c ∈ m.origin.around, c.isTried = true → EndedAt marks bound c.expr c.start

/-- The phase of a compilation that goes on as an action says. -/
def Next.phase : Next → Phase
  | .compile e => .compile e
  | .give v => .give v
  | .wait call => .wait call
  | .done fn => .finish fn

theorem Func.Marked.mono {fn : Func} {marks : List Mark}
    {finished finished' : List Func} (h : fn.Marked marks bound finished)
    (hfinished : finished ⊆ finished') : fn.Marked marks bound finished' :=
  { h with
    nested := fun code hcode block hblock i hi g hg =>
      hfinished (h.nested code hcode block hblock i hi g hg) }

theorem Func.Recorded.mono {fn : Func} {r : Record} {finished finished' : List Func}
    (h : fn.Recorded r finished) (hfinished : finished ⊆ finished') : fn.Recorded r finished' := by
  obtain ⟨marks, bound, horigins, hmarked, hlexical⟩ := h
  exact ⟨marks, bound, horigins, hmarked.mono hfinished, hlexical⟩

section

variable {d : Draft} {new : List Mark} (horigin : ∀ m ∈ new, m.origin = d.origin)
  (constructs : List Construct)

include horigin

/-- The instructions of a round are recorded with its origin. -/
theorem Draft.extend_origins (ws : List Waiting) :
    ((d.record constructs).extend d.origin ws (d.past ++ new).length).origins =
      (d.past ++ new).map (·.origin) := by
  have hnew : new.map (·.origin) = List.replicate new.length d.origin := by
    rw [List.eq_replicate_iff, List.length_map]
    refine ⟨rfl, fun o ho => ?_⟩
    obtain ⟨m, hm, rfl⟩ := List.mem_map.1 ho
    exact horigin m hm
  rw [List.map_append, hnew]
  simp [Draft.record, Record.extend]

theorem Draft.extend_record (pushed : List Waiting) :
    (d.record constructs).extend d.origin (pushed ++ d.frames) (d.past ++ new).length =
      Draft.record { d with past := d.past ++ new } (d.constructs pushed) := by
  have hcount : (pushed ++ d.frames).length - 1 - d.origin.around.length = pushed.length := by
    simp only [Draft.frames, List.length_append, List.length_map, List.length_singleton]
    omega
  have horigins := d.extend_origins horigin constructs (pushed ++ d.frames)
  unfold Record.extend at horigins ⊢
  rw [hcount, List.take_left]
  unfold Draft.record at horigins ⊢
  rw [Record.mk.injEq]
  exact ⟨rfl, rfl, horigins⟩

end

namespace Journal

def functions (j : Journal) : List Func := j.finished.map (·.1)

def Certified (j : Journal) : Prop := ∀ e ∈ j.finished, e.1.Recorded e.2 j.functions

/-- A journal agrees with the log of the next round. -/
structure Describes (j : Journal) (L : Log) (phase : Phase) : Prop where
  current : ∃ constructs, j.current = L.record constructs :: L.outer.map Outer.record ∧
    (L.record constructs).origin phase = L.origin
  finished : j.functions = L.finished

variable {j : Journal} {phase : Phase} {t : Task}

/-! ### The ways a journal goes on -/

section

variable {r : Record} {rs : List Record} (hcurrent : j.current = r :: rs) {fn : FunctionState}
  {fns : List FunctionState} (hs : t.state.functions = fn :: fns)

include hcurrent hs

theorem follow_same (hlength : fns.length = rs.length) (hphase : ∀ result, t.phase ≠ .finish result) :
    j.follow phase t =
      ⟨r.extend (r.origin phase) fn.waiting fn.builder.insts.size :: rs, j.finished⟩ := by
  unfold follow
  rw [hcurrent, hs]
  dsimp only
  rw [if_neg (by omega), if_neg (by omega)]
  split
  next hfinish => exact absurd hfinish (hphase _)
  next => rfl

theorem follow_done (hlength : fns.length = rs.length) {result : Func}
    (hphase : t.phase = .finish result) :
    (j.follow phase t).finished =
      (result, r.extend (r.origin phase) fn.waiting fn.builder.insts.size) :: j.finished := by
  unfold follow
  rw [hcurrent, hs]
  dsimp only
  rw [if_neg (by omega), if_neg (by omega), hphase]

theorem follow_begin {fn' : FunctionState} {fns' : List FunctionState} (hfns : fns = fn' :: fns')
    (hlength : fns'.length = rs.length) {body : Expr} (hphase : t.phase = .compile body) :
    j.follow phase t = ⟨⟨body, [], []⟩ ::
      r.extend (r.origin phase) fn'.waiting fn'.builder.insts.size :: rs, j.finished⟩ := by
  subst hfns
  unfold follow
  rw [hcurrent, hs]
  dsimp only
  rw [if_neg (by rw [List.length_cons]; omega), if_pos (by rw [List.length_cons]; omega), hphase]

theorem follow_end {r' : Record} {rs' : List Record} (hrs : rs = r' :: rs')
    (hlength : fns.length = rs'.length) {result : Func} (hphase : t.phase = .give (.func result)) :
    j.follow phase t =
      ⟨r'.extend (r'.origin t.phase) fn.waiting fn.builder.insts.size :: rs',
        (result, r.extend (r.origin phase) [] (r.origins.length + 1)) :: j.finished⟩ := by
  subst hrs
  unfold follow
  rw [hcurrent, hs]
  dsimp only
  rw [if_pos (by rw [List.length_cons]; omega), hphase]

end

/-- Only a function that is given or reported has been finished. -/
theorem follow_finished (hgive : ∀ result, t.phase ≠ .give (.func result))
    (hfinish : ∀ result, t.phase ≠ .finish result) : (j.follow phase t).finished = j.finished := by
  unfold follow
  dsimp only
  split
  · split
    · split
      · exact (hgive _ ‹_›).elim
      · rfl
    · split
      · split <;> rfl
      · split
        · exact (hfinish _ ‹_›).elim
        · rfl
  · rfl

/-! ### Rounds -/

theorem Certified.add (h : j.Certified) {fn : Func} {r : Record} (current : List Record)
    (hfn : fn.Recorded r j.functions) : Certified ⟨current, (fn, r) :: j.finished⟩ := by
  refine List.forall_mem_cons.2 ⟨hfn.mono (List.subset_cons_self _ _), fun e he => ?_⟩
  exact (h e he).mono (List.subset_cons_self _ _)

variable {L L' : Log} {new : List Mark} {next : Next} {ws : List Waiting}

/-- What the marks of a round say about the function that it finishes. -/
theorem recorded (hj : j.functions = L.finished) (hvalid : L.Valid) (hnew : L.Emits new)
    (hlast : L.IsLast) (hbound : L.bound ⊆ bound) {fn : Func}
    (hmarked : fn.Marked (L.past ++ new) bound L.finished) (constructs : List Construct)
    (waiting : List Waiting) :
    fn.Recorded ((L.record constructs).extend L.origin waiting (L.past ++ new).length)
      j.functions := by
  have hd := (hvalid.after hnew hbound).draft
  refine ⟨L.past ++ new, bound, L.extend_origins (fun m hm => (hnew m hm).1) _ _, hj ▸ hmarked,
    fun m hm => ⟨hd.marks m hm, fun c hc htried => ?_⟩⟩
  -- nothing is around the last round, so the statements of all blocks have ended
  obtain (⟨c', hc', -⟩ | ⟨⟨b, rest, hgiven⟩, -⟩) | hended := hd.tried m hm c hc htried
  · exact absurd (hlast.1 ▸ hc' : c' ∈ []) List.not_mem_nil
  · cases hlast.2.1.symm.trans hgiven
  · exact hended

section

variable (hj : j.Describes L phase) (hcert : j.Certified) (hnew : L.Emits new)

include hj hcert hnew

theorem Describes.follow_round {pushed : List Waiting} (hwaits : L'.Waits (pushed ++ L.frames) t.state)
    (houter : L'.outer = L.outer) (hfinished : L'.finished = L.finished) (hbody : L'.body = L.body)
    (hpast : L'.past = L.past ++ new) (hphase : ∀ result, t.phase ≠ .finish result)
    (hnext : ((L.withMarks new).record (L.constructs pushed)).origin t.phase = L'.origin) :
    (j.follow phase t).Describes L' t.phase ∧ (j.follow phase t).Certified := by
  obtain ⟨cs, hcurrent, horigin⟩ := hj.current
  obtain ⟨fn, fns, hs, hws, hsize, hrest⟩ := hwaits
  rw [houter] at hrest
  have hrecord : L'.record (L.constructs pushed) = (L.withMarks new).record (L.constructs pushed) := by
    unfold Draft.record
    rw [hbody, hpast]
    rfl
  rw [follow_same hcurrent hs (hrest.length_eq.symm.trans (List.length_map _).symm) hphase, horigin,
    hws, hsize, hpast, L.extend_record fun m hm => (hnew m hm).1]
  refine ⟨⟨⟨L.constructs pushed, ?_, hrecord ▸ hnext⟩, hj.finished.trans hfinished.symm⟩, hcert⟩
  rw [houter, hrecord]
  rfl

theorem Describes.follow_begun {w : Waiting} {records : Records} {body : Expr} {span : Span} {pin : Pin}
    (hwaits : ((L.after new bound).inner w records body span pin).Waits ws t.state)
    (hphase : t.phase = .compile body) :
    (j.follow phase t).Describes ((L.after new bound).inner w records body span pin) t.phase ∧
      (j.follow phase t).Certified := by
  obtain ⟨cs, hcurrent, horigin⟩ := hj.current
  obtain ⟨fn, _, hs, -, -, hrest⟩ := hwaits
  cases hrest with
  | cons hfn' hrest =>
    rw [follow_begin hcurrent hs rfl (hrest.length_eq.symm.trans (List.length_map _).symm) hphase,
      horigin, hfn'.frames, hfn'.size]
    refine ⟨⟨⟨[], ?_, by rw [hphase]; rfl⟩, hj.finished⟩, hcert⟩
    exact congrArg₂ (_ :: · :: ·) (L.extend_record (fun m hm => (hnew m hm).1) cs [w]) rfl

theorem Describes.follow_ended (hvalid : L.Valid) (hbegan : L.began = L.past.length) {o : Outer}
    {outer : List Outer} {fn : Func} {new' : List Mark}
    {bound bound' : List (Label × Nat)} (hbound : L.bound ⊆ bound) (houter : L.outer = o :: outer)
    (ho : o.origin.given = some o.frame) (hlast : L.IsLast)
    (hone : (L.past ++ new).length = L.began + 1)
    (hmarked : fn.Marked (L.past ++ new) bound L.finished)
    (hnew' : Log.Emits (.afterInner o outer (fn :: L.finished)) new')
    (hwaits : ((Log.afterInner o outer (fn :: L.finished)).after new' bound').again.Waits
      (o.frame :: o.frames) t.state) (hphase : t.phase = .give (.func fn)) :
    (j.follow phase t).Describes
        ((Log.afterInner o outer (fn :: L.finished)).after new' bound').again t.phase ∧
      (j.follow phase t).Certified := by
  obtain ⟨cs, hcurrent, horigin⟩ := hj.current
  obtain ⟨fn', fns, hs, hws, hsize, hrest⟩ := hwaits
  have hcount : (L.record cs).origins.length + 1 = (L.past ++ new).length := by
    rw [hone, hbegan, Draft.record, List.length_map]
  rw [houter] at hcurrent
  rw [follow_end hcurrent hs rfl (hrest.length_eq.symm.trans (List.length_map _).symm) hphase,
    horigin, hcount]
  have horigin' : o.record.origin t.phase = o.origin := by
    rw [hphase]
    change Origin.mk o.origin.expr o.origin.start (some o.frame) o.origin.around = o.origin
    rw [← ho]
  refine ⟨⟨⟨o.constructs [o.frame], ?_, ?_⟩, ?_⟩, ?_⟩
  · rw [horigin', hws, hsize]
    exact congrArg (· :: _)
      (o.toDraft.extend_record (fun m hm => (hnew' m hm).1) (o.constructs [o.frame]) [o.frame])
  · rw [hphase] at horigin' ⊢
    exact horigin'
  · exact congrArg (fn :: ·) hj.finished
  · exact hcert.add _ (recorded hj.finished hvalid hnew hlast hbound hmarked cs [])

/-- The journal agrees with the log of the round after. -/
theorem Describes.follow (hvalid : L.Valid) (hbegan : L.began = L.past.length)
    (hbound : L.bound ⊆ bound)
    (hmoves : (L.after new bound).Moves next ws L') (hwaits : L'.Waits ws t.state)
    (hphase : t.phase = next.phase) :
    (j.follow phase t).Describes L' t.phase ∧ (j.follow phase t).Certified := by
  -- all moves but two stay inside of the function
  have round : ∀ pushed : List Waiting, L'.Waits (pushed ++ L.frames) t.state →
      L'.outer = L.outer → L'.finished = L.finished → L'.body = L.body → L'.past = L.past ++ new →
      (∀ result, t.phase ≠ .finish result) →
      ((L.withMarks new).record (L.constructs pushed)).origin t.phase = L'.origin →
      (j.follow phase t).Describes L' t.phase ∧ (j.follow phase t).Certified :=
    fun _ => hj.follow_round hcert hnew
  cases hmoves with
  | @opened w e pin p hopens =>
    refine round [w] hwaits rfl rfl rfl rfl (by simp [hphase, Next.phase]) ?_
    rw [hphase]
    simp [Next.phase, Record.origin, Draft.record, Draft.constructs, Log.opened, Log.withMarks,
      Log.after]
  | replaced hexpr =>
    refine round [] hwaits rfl rfl rfl rfl (by simp [hphase, Next.phase]) ?_
    rw [hphase]
    simp [Next.phase, Record.origin, Draft.record, Draft.constructs, Log.replaced, Log.withMarks,
      Log.after]
  | @closed c around v haround =>
    refine round [] hwaits rfl rfl rfl rfl (by simp [hphase, Next.phase]) ?_
    have hconstructs : L.constructs [] = c :: around := haround
    rw [hphase, hconstructs]
    rfl
  | ended haround =>
    refine round [] hwaits rfl rfl rfl rfl (by simp [hphase, Next.phase]) ?_
    have hconstructs : L.constructs [] = [] := haround
    rw [hphase, hconstructs]
    rfl
  | @asked w call =>
    refine round [w] hwaits rfl rfl rfl rfl (by simp [hphase, Next.phase]) ?_
    rw [hphase]
    rfl
  | begun hkeeps => exact hj.follow_begun hcert hnew hwaits hphase
  | finished houter hlast hone hmarked hnew' =>
    obtain ⟨ho, -⟩ := List.forall_mem_cons.1 (houter ▸ hvalid.outer)
    exact hj.follow_ended hcert hnew hvalid hbegan hbound houter ho.given hlast hone hmarked hnew'
      hwaits hphase

theorem Describes.follow_finish (hvalid : L.Valid) (hlast : L.IsLast) {fn : Func}
    (hmarked : fn.Marked (L.withMarks new).past L.bound L.finished)
    (hwaits : (L.withMarks new).Waits ws t.state) (hphase : t.phase = .finish fn) :
    fn ∈ (j.follow phase t).functions ∧ (j.follow phase t).Certified := by
  obtain ⟨cs, hcurrent, horigin⟩ := hj.current
  obtain ⟨fn', fns, hs, hws, hsize, hrest⟩ := hwaits
  have hfinished := @follow_done j phase t _ _ hcurrent _ _ hs
    (hrest.length_eq.symm.trans (List.length_map _).symm) _ hphase
  rw [horigin, hsize] at hfinished
  unfold functions Certified functions
  rw [hfinished]
  exact ⟨List.mem_cons_self,
    hcert.add [] (recorded hj.finished hvalid hnew hlast (List.Subset.refl _) hmarked cs _)⟩

end

end Journal

end StagedScript
