import StagedScript.Proofs.Compile.Operand

/-!
# Declarations and assignments

A declaration of a block stores into the slots that the block has reserved, and a constant is bound
to the value of a call.  An assignment stores into the slot or the captured value of its name, or
through a reference.
-/

namespace StagedScript

variable {L : Log} {E E' : Env} {y : Nesting} {cur : Cursor} {s : CompileState} {c : Settings}
  {x : Context} {l k : Layout}

namespace Compiling

/-! ### Declarations -/

theorem reservedIds_at (h : At L E y cur s) (ds : List Decl) :
    Runs c (reservedIds ds) s fun ids s' => s = s' ∧ ids.length = ds.length ∧
      ∀ id ∈ ids, ∃ d ∈ ds, y.reserved.lookup d.id = some id := by
  refine (current_at h).bind ?_
  rintro fn _ ⟨rfl, hfn, -⟩
  rw [show fn.reserved = y.reserved from congrArg (·.reserved) hfn]
  refine Runs.mapM fun d _ => ?_
  split
  · exact .pure ⟨rfl, by assumption⟩
  · exact .throw

theorem modifyEach_at (h : At L E y cur s) {f : Binding → Binding}
    (hf : ∀ b, b.Sound E.counts → (f b).Sound E.counts ∧ (f b).slot? = b.slot?)
    (ids : List BindingId) : Runs c (modifyEach f ids) s fun _ s' => At L E y cur s' := by
  induction ids generalizing s with
  | nil => exact .pure h
  | cons id ids ih => exact (modifyBinding_at h id hf).bind fun _ _ h => ih h

variable {ids : List BindingId} {value : Expr} {values : List Expr} {v : Value}

/-- The declarations of a statement are those of the block, and have slots unless they are
constants. -/
theorem reserved_own (hx : x.Describes E y) {vars lets defs ds : List Decl} {binder : Binder}
    (hlevel : x.Declares vars lets defs) (hdecl : binder.Declares vars lets defs ds)
    (hids : ∀ id ∈ ids, ∃ d ∈ ds, y.reserved.lookup d.id = some id) :
    (∀ id ∈ ids, id ∈ x.own) ∧ (binder ≠ .constant → ∀ id ∈ ids, E.HasSlot x.floor id) := by
  obtain ⟨lv, hlv, hslotted, hlevelIds⟩ := hlevel
  have hnames := hx.names
  unfold Context.own Context.floor
  cases hlevels : x.levels with
  | nil => simp [hlevels] at hlv
  | cons lv' levels =>
    obtain rfl : lv' = lv := by simpa [hlevels] using hlv
    rw [hlevels] at hnames
    refine ⟨fun id hid => ?_, fun hbinder id hid => ?_⟩
    all_goals
      obtain ⟨d, hd, hlookup⟩ := hids id hid
      have hmem := hdecl.2 d hd
      obtain ⟨hown, hslot⟩ := hnames.2.1 _ _ hlookup
    · refine hown ?_
      rw [hlevelIds, List.map_append, List.mem_append]
      split at hmem
      · exact .inr hmem
      · exact .inl hmem
    · rw [if_neg hbinder, ← hslotted] at hmem
      exact hslot hmem

/-- The compiler is at the same place with some of the declarations of the innermost block brought into
scope. -/
def Brings (L : Log) (E : Env) (y : Nesting) (x : Context) (own : List BindingId) (cur : Cursor)
    (s : CompileState) : Prop :=
  ∃ y' ids, At L E y' cur s ∧ (x.declaring ids).Describes E y' ∧ y'.waiting = y.waiting ∧ ids ⊆ own

theorem Brings.refl (h : At L E y cur s) (hx : x.Describes E y) (own : List BindingId) :
    Brings L E y x own cur s :=
  ⟨y, [], h, hx, rfl, List.nil_subset _⟩

theorem declareOwned_at (hd : Brings L E y x ids cur s) (hown : ∀ id ∈ ids, id ∈ x.own)
    {id : BindingId} (hid : id ∈ ids) :
    Runs c (declare id) s fun _ s' => Brings L E y x ids cur s' := by
  obtain ⟨y', added, h, hx, hy, hadded⟩ := hd
  exact (declare_at h id).imp fun _ s h =>
    ⟨_, id :: added, h, hx.declareOwn (hown id hid), hy, List.cons_subset.2 ⟨hid, hadded⟩⟩

theorem declareOwn_at (h : At L E y cur s) (hx : x.Describes E y) (pattern : Pattern)
    (hown : ∀ id ∈ ids, id ∈ x.own) :
    Runs c (declareOwn pattern ids) s fun _ s' => Brings L E y x ids cur s' := by
  refine .ite (fun _ => ?_) fun _ => .pure (.refl h hx ids)
  split
  · exact declareOwned_at (.refl h hx _) hown List.mem_cons_self
  · exact .pure (.refl h hx _)

theorem bind_ready (h : At L E y (.live ⟨k, x.watch⟩) s) (ha : Around L E y x k) (span : Span)
    {vars lets defs ds : List Decl} {binder : Binder} (hlevel : x.Declares vars lets defs)
    (hdecl : binder.Declares vars lets defs ds)
    (hbrings : L.own = ds.filterMap fun d => y.reserved.lookup d.id) (pattern : Pattern)
    (hvalue : value.Sound E.counts) (hpart : L.Has value) :
    Runs c (bind span binder pattern ds value) s (Ready L) := by
  refine (reservedIds_at h ds).bind ?_
  rintro ids _ ⟨rfl, -, hids⟩
  obtain ⟨hown, hslots⟩ := reserved_own ha.describes hlevel hdecl hids
  have hkeeps : ∀ id ∈ ids, id ∈ L.own := fun id hid => by
    rw [hbrings]
    exact List.mem_filterMap.2 (hids id hid)
  have hinit := orNil_sound hvalue span
  -- all declarations but constants are computed in place
  have store : ∀ {s : CompileState}, binder ≠ .constant →
      Brings L E y x ids (.live ⟨k, x.watch⟩) s →
      Runs c (andThen (value.orNil span) (.binding span binder pattern ids)) s (Ready L) := by
    rintro s hbinder ⟨y', added, h, hx, hy, hadded⟩
    exact andThen_ready (x := x.declaring added) h (Inside.push (hy ▸ ha.toInside) hx
      (ha.fits.declaring added) (.binding (fun id hid => ⟨hown id hid, hslots hbinder id hid⟩) hadded))
      ⟨hkeeps, hpart.orNil span⟩ hinit
  cases binder with
  | constant =>
    refine (declareOwn_at h ha.describes pattern hown).bind ?_
    rintro _ s ⟨y', added, h, hx, hy, hadded⟩
    have huse : ∀ id ∈ (ConstantUse.define pattern ids).ids, id ∈ x.own := hown
    exact beginFunction_ready (x := x.declaring added) h (hy ▸ ha.toInside) hx
      (.constantCode huse hadded) (ha.fits.declaring added) hkeeps hinit _ _ _ _ _
  | letName =>
    exact (declareOwn_at h ha.describes pattern hown).bind fun _ s hd => store nofun hd
  | «variable» => exact store nofun (.refl h ha.describes ids)
  | reference =>
    refine .ite (fun _ => ?_) fun hne => absurd rfl hne
    exact Runs.bind (modifyEach_at (f := ({ · with isReference := true })) h
      (fun _ hb => ⟨hb, rfl⟩) ids) fun _ s h => store nofun (.refl h ha.describes ids)

theorem storeOp_at {m : Layout} {w : Watch Label} (h : At L E y (.live ⟨.value :: m, w⟩) s)
    {id : BindingId} (hslot : E.HasSlot l id) (hl : l <:+ m) {b : Binding}
    (hb : ∀ n, E.slots[id]? = some n → b.slot? = n) (line : Nat) {o : Opcode}
    (ho : o = .initVar ∨ o = .initLet ∨ o = .letBackfill ∨ o = .initRef) :
    Runs c (opCount line o b.slot) s fun _ s' => At L E y (.live ⟨.value :: m, w⟩) s' := by
  obtain ⟨n, hn, hkind⟩ := hslot
  have hbslot : b.slot = n := by
    have := hb _ hn
    unfold Binding.slot? at this
    split at this
    · cases this
    · exact Option.some.inj this
  rw [hbslot]
  refine opCount_at h (.store m (.inr ?_) (Layout.kindAt?_of_suffix hl hkind)) rfl ?_ nofun
  · exact ho
  · obtain rfl | rfl | rfl | rfl := ho <;> rfl

theorem storeEach_at {w : Watch Label} {m : Layout} (ids : List BindingId)
    (h : At L E y (.live ⟨Layout.values ids.length ++ m, w⟩) s) (hl : l <:+ m)
    (hids : ∀ id ∈ ids, E.HasSlot l id) (line : Nat) (binder : Binder) :
    Runs c (storeEach line (storeOp binder) ids) s fun _ s' => At L E y (.live ⟨m, w⟩) s' := by
  induction ids generalizing s with
  | nil => exact .pure h
  | cons id ids ih =>
    refine (binding_at h id).bind ?_
    rintro b _ ⟨rfl, -, -, hb⟩
    refine Runs.bind (storeOp_at h (hids id List.mem_cons_self)
      (hl.trans (List.suffix_append _ _)) hb line ?_) fun _ s h => ?_
    · cases binder <;> simp [storeOp]
    refine Runs.bind (op_at h (.pop _ rfl) rfl rfl nofun) fun _ s h => ?_
    exact ih h fun id hid => hids id (List.mem_cons_of_mem _ hid)

theorem declareEach_at {own : List BindingId} (hd : Brings L E y x own cur s)
    (hown : ∀ id ∈ own, id ∈ x.own) (hids : ids ⊆ own) :
    Runs c (declareEach ids) s fun _ s' => Brings L E y x own cur s' := by
  induction ids generalizing s with
  | nil => exact .pure hd
  | cons id ids ih =>
    obtain ⟨hid, hids⟩ := List.cons_subset.1 hids
    obtain ⟨y', added, h, hx, hy, hadded⟩ := hd
    refine (markBound_at h id).bind fun _ s h => ?_
    exact (declareOwned_at ⟨y', added, h, hx, hy, hadded⟩ hown hid).bind fun _ s hd => ih hd hids

theorem give_brought (hd : Brings L E y x ids (.live ⟨.value :: k, x.watch⟩) s)
    (hin : Inside L E y.waiting x k) (hkeeps : ∀ id ∈ ids, id ∈ L.own) :
    Runs c (pure (.give v)) s (Ready L) := by
  obtain ⟨y', added, h, hx, hy, hadded⟩ := hd
  exact .pure (.give h (hy ▸ hin) hx fun id hid => hkeeps id (hadded hid))

theorem resumeBinding_ready (hd : Brings L E y x ids (.live ⟨.value :: k, x.watch⟩) s)
    (hin : Inside L E y.waiting x k) (span : Span) (binder : Binder) (pattern : Pattern)
    (hids : ∀ id ∈ ids, id ∈ x.own ∧ E.HasSlot x.floor id) (hkeeps : ∀ id ∈ ids, id ∈ L.own) :
    Runs c (resumeBinding span binder pattern ids) s (Ready L) := by
  have hown : ∀ id ∈ ids, id ∈ x.own := fun id hid => (hids id hid).1
  obtain ⟨y', added, h, hx, hy, hadded⟩ := hd
  unfold resumeBinding
  dsimp only
  split
  · rename_i id rest
    have hid := (hids id List.mem_cons_self).2
    refine (binding_at h id).bind ?_
    rintro b _ ⟨rfl, -, -, hb⟩
    refine .ite (fun _ => ?_) fun _ => ?_
    · refine Runs.bind (storeOp_at h hid hin.fits.floor hb _ ?_) fun _ s h => ?_
      · split <;> simp
      · exact (bindValue_at (v := .nil) h id trivial).bind fun _ s h =>
          give_brought ⟨y', added, h, hx, hy, hadded⟩ hin hkeeps
    · refine Runs.bind (storeOp_at h hid hin.fits.floor hb _ ?_) fun _ s h => ?_
      · cases binder <;> simp [storeOp]
      · refine (markBound_at h id).bind fun _ s h => ?_
        exact (declareOwned_at ⟨y', added, h, hx, hy, hadded⟩ hown List.mem_cons_self).bind
          fun _ s hd => give_brought hd hin hkeeps
  · exact Runs.throw.bind (P := fun _ _ => False) nofun
  -- elements and members end up on the stack in the same order
  · have finish : ∀ {s : CompileState},
        At L E y' (.live ⟨Layout.values ids.length ++ .value :: k, x.watch⟩) s →
        Runs c (do
          storeEach span.first (storeOp binder) ids.reverse
          declareEach ids
          return .give .nil) s (Ready L) := by
      intro s h
      rw [← List.length_reverse] at h
      refine (storeEach_at ids.reverse h (hin.fits.floor.trans (List.suffix_cons _ _))
        (fun id hid => (hids id (List.mem_reverse.1 hid)).2) _ _).bind fun _ s h => ?_
      exact (declareEach_at ⟨y', added, h, hx, hy, hadded⟩ hown (List.Subset.refl _)).bind
        fun _ s hd => give_brought hd hin hkeeps
    refine Runs.bind (op_at h (.dup _ rfl) rfl rfl nofun) fun _ s h => ?_
    refine .ite (fun _ => ?_) fun _ => ?_
    · exact Runs.bind (opCount_at h (.unpack _ _ rfl rfl) rfl rfl
        (hin.catches (List.suffix_cons _ _))) fun _ s h => finish h
    · refine (Runs.mapM (R := fun _ _ => True) (s := s) fun id _ => ?_).bind ?_
      · exact (binding_at h id).bind fun b _ hb => .pure ⟨hb.1, trivial⟩
      rintro infos _ ⟨rfl, hlength, -⟩
      refine Runs.bind (emit_at h (.symbols _ rfl) rfl rfl (.plain rfl rfl)
        (hin.catches (List.suffix_cons _ _))) fun _ s h => finish ?_
      rwa [← hlength]

/-! ### Constants -/

section

variable (hin : Inside L E y.waiting x k) (span : Span) {use : ConstantUse} (hv : v.Sound E.counts)
  (huse : ∀ id ∈ use.ids, id ∈ x.own) (hkeeps : ∀ id ∈ use.ids, id ∈ L.own)
  (hd : Brings L E y x use.ids (.live ⟨k, x.watch⟩) s)

include hin hv huse hkeeps hd

theorem resumeConstantCode_ready : Runs c (resumeConstantCode span use v) s (Ready L) := by
  obtain ⟨y', added, h, hx, hy, hadded⟩ := hd
  unfold resumeConstantCode
  split
  · refine (push_at h _).bind fun _ s h => .pure ?_
    exact .wait (x := x.declaring added) h
      (Inside.ask (hy ▸ hin) hx (.constantValue huse hadded)) hkeeps nofun hv (by simp)
  · exact .throw

omit hin hv huse hkeeps hd in
theorem defineEach_at {own : List BindingId} (hd : Brings L E y x own cur s)
    (hown : ∀ id ∈ own, id ∈ x.own) (hids : ids ⊆ own) {values : List Value}
    (hvalues : Value.AllSound E.counts values) :
    Runs c (defineEach ids values) s fun _ s' => Brings L E y x own cur s' := by
  induction ids generalizing s values with
  | nil => exact .pure hd
  | cons id ids ih =>
    have hhead : (values.headD .nil).Sound E.counts ∧ Value.AllSound E.counts values.tail := by
      cases values with
      | nil => exact ⟨trivial, trivial⟩
      | cons v vs => exact hvalues
    obtain ⟨hid, hids⟩ := List.cons_subset.1 hids
    obtain ⟨y', added, h, hx, hy, hadded⟩ := hd
    refine (bindValue_at h id hhead.1).bind fun _ s h => ?_
    exact (declareOwned_at ⟨y', added, h, hx, hy, hadded⟩ hown hid).bind fun _ s hd =>
      ih hd hids hhead.2

omit hin huse hkeeps hd in
theorem defineMembers_at {own : List BindingId} (hd : Brings L E y x own cur s)
    (hown : ∀ id ∈ own, id ∈ x.own) (hids : ids ⊆ own) :
    Runs c (defineMembers span v ids) s fun _ s' => Brings L E y x own cur s' := by
  induction ids generalizing s with
  | nil => exact .pure hd
  | cons id ids ih =>
    obtain ⟨hid, hids⟩ := List.cons_subset.1 hids
    obtain ⟨y', added, h, hx, hy, hadded⟩ := hd
    unfold defineMembers
    refine (binding_at h id).bind ?_
    rintro b _ ⟨rfl, -⟩
    dsimp only
    split
    · exact Runs.get.bind fun _ _ _ => .throw
    · rename_i m hm
      refine (bindValue_at h id (Value.member?_sound hv hm)).bind fun _ s h => ?_
      exact (declareOwned_at ⟨y', added, h, hx, hy, hadded⟩ hown hid).bind fun _ s hd => ih hd hids

theorem resumeConstantValue_ready : Runs c (resumeConstantValue span use v) s (Ready L) := by
  have finish : ∀ {s : CompileState}, Brings L E y x use.ids (.live ⟨k, x.watch⟩) s →
      Runs c (do constant span.first v; return .give v) s (Ready L) := by
    rintro s ⟨y', added, h, hx, hy, hadded⟩
    exact (constant_at h _ hv).bind fun _ s h =>
      give_brought ⟨y', added, h, hx, hy, hadded⟩ hin hkeeps
  unfold resumeConstantValue
  split
  · exact finish hd
  · split
    · obtain ⟨y', added, h, hx, hy, hadded⟩ := hd
      exact (bindValue_at h _ hv).bind fun _ s h => finish ⟨y', added, h, hx, hy, hadded⟩
    · exact Runs.throw.bind (P := fun _ _ => False) nofun
  · split
    · exact (defineEach_at hd huse (List.Subset.refl _) hv).bind fun _ s hd => finish hd
    · exact (defineEach_at hd huse (List.Subset.refl _) hv).bind fun _ s hd => finish hd
    · exact Runs.get.bind fun _ _ _ => Runs.throw.bind (P := fun _ _ => False) nofun
  · refine .ite (fun _ => ?_) fun _ => ?_
    · exact (defineMembers_at span hv hd huse (List.Subset.refl _)).bind fun _ s hd => finish hd
    · exact Runs.get.bind fun _ _ _ => Runs.throw.bind (P := fun _ _ => False) nofun

end

/-! ### Scoped names -/

theorem scopedBindings_at (h : At L E y cur s) {slot : Int} {known : List BindingId} (ds : List Decl)
    (hsep : E.Separate l slot known)
    (hslots : ∀ i : Nat, i < ds.length → l.kindAt? (slot + i) = some .value) :
    Runs c (scopedBindings slot ds) s fun r s' => r.1.length = ds.length ∧
      r.2.length = ds.length ∧ ∃ E', E.Extends E' ∧ At L E' y cur s' ∧
        (∀ id ∈ r.1, E'.HasSlot l id) ∧
        E'.Separate l (slot + ds.length) (r.1.reverse ++ known) := by
  induction ds generalizing E s slot known with
  | nil => exact .pure ⟨rfl, rfl, E, .refl E, h, by simp, by simpa using hsep⟩
  | cons d ds ih =>
    have hslot : l.kindAt? slot = some .value := by simpa using hslots 0 (by simp)
    refine Runs.bind (newBinding_at h ⟨trivial, nofun⟩) ?_
    rintro id s ⟨E₁, hE₁, hid, h⟩
    have hsep := (hsep.mono hE₁ (List.suffix_refl l)).cons hid fun n hn => by
      cases hn
      exact ⟨rfl, hslot⟩
    refine (ih h hsep fun i hi => ?_).bind ?_
    · have := hslots (i + 1) (by simpa using hi)
      rwa [show slot + ((i + 1 : Nat) : Int) = slot + 1 + i by omega] at this
    rintro ⟨ids, infos⟩ s ⟨hids, hinfos, E₂, hE₂, h, hhas, hsep⟩
    refine .pure ⟨by simp [hids], by simp [hinfos], E₂, hE₁.trans hE₂, h,
      List.forall_mem_cons.2 ⟨⟨slot, hE₂.slots _ _ hid, hslot⟩, hhas⟩, ?_⟩
    rw [show slot + ((d :: ds).length : Int) = slot + 1 + ds.length by simp; omega]
    simpa using hsep

section

variable (span : Span) {body : Expr} (hvalues : Expr.AllSound E.counts values)
  (hbody : body.Sound E.counts) (hparts : ∀ e ∈ body :: values, L.Has e) {count : Nat}
  {own done : List BindingId}
  (hx : ((x.withNames (Layout.values count ++ k) own).declaring done).Describes E y)
  (hin : Inside L E y.waiting x k)

include hvalues hbody hparts hx hin in
theorem scopedNext_ready (h : At L E y (.live ⟨Layout.values count ++ k, x.watch⟩) s)
    (hids : ∀ id ∈ ids, id ∈ own ∧ E.HasSlot (Layout.values count ++ k) id) :
    Runs c (scopedNext span x.scope count ids values body) s (Ready L) := by
  have hfits := (hin.fits.withNames (List.suffix_append (Layout.values count) k) own).declaring done
  cases ids with
  | nil =>
    exact andThen_ready (x := (x.withNames _ _).declaring _) h (hin.push hx hfits .scopedBody)
      ⟨nofun, hparts body List.mem_cons_self⟩ hbody
  | cons id ids =>
    have hhead : (values.headD .absent).Sound E.counts ∧ Expr.AllSound E.counts values.tail := by
      cases values with
      | nil => exact ⟨trivial, trivial⟩
      | cons e es => exact hvalues
    -- a missing value stands for nil
    have hpart : L.Has ((values.headD .absent).orNil span) := by
      cases values with
      | nil => exact .inr ⟨span, rfl⟩
      | cons e es => exact (hparts e (by simp)).orNil span
    refine andThen_ready (x := (x.withNames _ _).declaring _) h
      (hin.push hx hfits (.scopedValue hids hhead.2 hbody)) ⟨?_, hpart⟩
      (orNil_sound hhead.1 span)
    exact List.forall_mem_cons.2 ⟨hparts body List.mem_cons_self, fun e he =>
      hparts e (List.mem_cons_of_mem _ (List.mem_of_mem_tail he))⟩

include hvalues hbody hparts in
theorem scopedNames_ready (h : At L E y (.live ⟨k, x.watch⟩) s) (ha : Around L E y x k)
    (decls : List Decl) :
    Runs c (scopedNames span decls values body) s (Ready L) := by
  refine (current_at h).bind ?_
  rintro fn _ ⟨rfl, hfn, htyped, -⟩
  have htop : fn.top = k.length := htyped.height.1
  rw [show fn.scope = x.scope from congrArg (·.scope) (ha.records hfn), htop]
  have hsep := (ha.describes.separate ha.fits.floor).mono (.refl E)
    (List.suffix_append (Layout.values decls.length) k)
  refine (scopedBindings_at h decls hsep fun i hi =>
    Layout.kindAt?_values_append (by omega) (by omega)).bind ?_
  rintro ⟨ids, infos⟩ s ⟨hids, hinfos, E₁, hE, h, hslots, hsep⟩
  dsimp only at hids hslots
  rw [← hids] at hslots hsep
  replace ha := ha.mono hE
  have finish : ∀ {s : CompileState},
      At L E₁ y (.live ⟨Layout.values ids.length ++ k, x.watch⟩) s →
      Runs c (scopedNext span x.scope ids.length ids values body) s (Ready L) := by
    intro s h
    have hx : ((x.withNames _ _).declaring []).Describes E₁ y := ha.describes.withNames _ hsep
    exact scopedNext_ready span (hvalues.mono hE.counts) (hbody.mono hE.counts) hparts hx
      ha.toInside h fun id hid => ⟨List.mem_reverse.2 hid, hslots id hid⟩
  refine .ite (fun _ => ?_) fun hempty => ?_
  · refine Runs.bind (emit_at h (.enter k rfl) rfl rfl (.plain rfl rfl) nofun)
      fun _ s h => finish ?_
    rwa [hids, ← hinfos]
  · refine finish ?_
    have hnil : infos.length = 0 := by simpa using hempty
    rwa [hids, ← hinfos, hnil]

variable (h : At L E y (.live ⟨.value :: (Layout.values count ++ k), x.watch⟩) s)

include hvalues hbody hparts hx hin h in
theorem resumeScopedValue_ready {id : BindingId}
    (hids : ∀ i ∈ id :: ids, i ∈ own ∧ E.HasSlot (Layout.values count ++ k) i) :
    Runs c (resumeScopedValue span x.scope count id ids values body) s (Ready L) := by
  obtain ⟨⟨hid, hslot⟩, hids⟩ := List.forall_mem_cons.1 hids
  refine (binding_at h id).bind ?_
  rintro b _ ⟨rfl, -, -, hb⟩
  refine (storeOp_at h hslot (List.suffix_refl _) hb _ (.inr (.inl rfl))).bind fun _ s h => ?_
  refine Runs.bind (op_at h (.pop _ rfl) rfl rfl nofun) fun _ s h => ?_
  refine (markBound_at h id).bind fun _ s h => (declare_at h id).bind fun _ s h => ?_
  have hx : ((x.withNames _ _).declaring (id :: done)).Describes E _ := hx.declareOwn hid
  exact scopedNext_ready span hvalues hbody hparts hx hin h hids

include hx hin h in
theorem resumeScopedBody_ready :
    Runs c (resumeScopedBody span x.scope count) s (Ready L) := by
  have finish : ∀ {s : CompileState}, At L E y (.live ⟨.value :: k, x.watch⟩) s →
      Runs c (do modifyCurrent ({ · with scope := x.scope }); return .give .nil) s (Ready L) := fun h =>
    Runs.bind (modifyCurrent_at ({ · with scope := x.scope }) h fun _ => rfl) fun _ _ h =>
      give_ready h ⟨hin, hx.ofNames⟩
  refine .ite (fun _ => ?_) fun hcount => ?_
  · exact Runs.bind (opCount_at h (.leave _ k rfl rfl) rfl rfl nofun) fun _ _ h =>
      finish h
  · obtain rfl : count = 0 := by omega
    exact finish h

end

/-! ### Assignments -/

theorem assignValue_ready (h : At L E y (.live ⟨l, x.watch⟩) s) (ha : Around L E y x k)
    (hl : k <:+ l) (span : Span) (hvalue : value.Sound E.counts) (hpart : L.Has value)
    {o : OldValue} (ho : o.Reads E l) {store : Opcode} {operand : Int}
    (hw : (Waiting.assignValue span store operand).Takes E (x.inAssign o) l x k) :
    Runs c (assignValue span value o store operand) s (Ready L) := by
  refine Runs.bind (modifyCurrent_at (fun y => { y with olds := o :: y.olds }) h fun _ => rfl)
    fun _ s h => ?_
  exact andThen_ready (x := x.inAssign o) h ⟨ha.describes.inAssign o,
    (ha.fits.mono (.refl E) hl).inAssign ho, x, k, hw, ha.toInside⟩ ⟨nofun, hpart⟩ hvalue

theorem assignThrough_ready (h : At L E y (.live ⟨.value :: k, x.watch⟩) s)
    (ha : Around L E y x k) (span : Span) (hvalue : value.Sound E.counts) (hpart : L.Has value) :
    Runs c (assignThrough span value) s (Ready L) := by
  refine Runs.bind (op_at h (.dup _ rfl) rfl rfl nofun) fun _ s h => ?_
  refine (height_at h).bind ?_
  rintro _ _ ⟨rfl, rfl⟩
  refine assignValue_ready h ha ((List.suffix_cons _ _).trans (List.suffix_cons _ _)) span hvalue
    hpart (.inl ⟨.inl rfl, ?_⟩) .assignThrough
  have hindex : ((SlotKind.value :: .value :: k).length : Int) - 1 =
      (SlotKind.value :: k).length := by simp
  rw [hindex]
  exact Layout.kindAt?_cons_length _ _

theorem assignTo_ready (h : At L E y (.live ⟨k, x.watch⟩) s) (ha : Around L E y x k) (span : Span)
    (n : Bytes) (hvalue : value.Sound E.counts) (hpart : L.Has value) (isReference : Bool)
    (r : Reference) : r.Valid E k →
    Runs c (if isReference then do
        opCount span.first r.load.1 r.load.2
        assignThrough span value
      else match r with
        | .slot index _ | .slotIndirect index _ =>
          assignValue span value ⟨r.load.1, index⟩ .assignLocal index
        | .captured index id => do
          modifyBinding id ({ · with isVariable := true })
          assignValue span value ⟨.upvalue, index⟩ .assignUpvalue index
        | .constant _ (some _) => failAt span .compiler ("cannot assign to def " ++ n)
        | .constant v none => do
          constant span.first v
          assignThrough span value) s (Ready L) := by
  intro hr
  have through : ∀ {s : CompileState}, At L E y (.live ⟨.value :: k, x.watch⟩) s →
      Runs c (assignThrough span value) s (Ready L) := fun h =>
    assignThrough_ready h ha span hvalue hpart
  have hk := List.suffix_refl k
  cases r with
  | constant v o =>
    refine .ite (fun _ => ?_) fun _ => ?_
    · exact Runs.bind (opCount_at h (.push k (.inr rfl)) rfl rfl nofun) fun _ _ => through
    · cases o with
      | none => exact (constant_at h _ hr).bind fun _ _ => through
      | some id => exact .throw
  | slot index id =>
    have hreads : OldValue.Reads E k ⟨.local, index⟩ := .inl ⟨.inl rfl, hr⟩
    refine .ite (fun _ => ?_) fun _ => assignValue_ready h ha hk span hvalue hpart hreads
      (.assignLocal hr)
    exact Runs.bind (opCount_at h (.load k (.inl rfl) hr) rfl rfl nofun) fun _ _ => through
  | slotIndirect index id =>
    have hreads : OldValue.Reads E k ⟨.localIndirect, index⟩ := .inl ⟨.inr rfl, hr⟩
    refine .ite (fun _ => ?_) fun _ => assignValue_ready h ha hk span hvalue hpart hreads
      (.assignLocal hr)
    exact Runs.bind (opCount_at h (.load k (.inr rfl) hr) rfl rfl nofun)
      fun _ _ => through
  | captured index id =>
    have hreads : OldValue.Reads E k ⟨.upvalue, index⟩ := .inr ⟨rfl, hr⟩
    refine .ite (fun _ => ?_) fun _ => ?_
    · exact Runs.bind (opCount_at h (.upvalue k rfl hr.1 hr.2) rfl rfl nofun)
        fun _ _ => through
    · refine Runs.bind (modifyBinding_at (f := ({ · with isVariable := true })) h id
        fun _ hb => ⟨hb, rfl⟩) fun _ s h => ?_
      exact assignValue_ready h ha hk span hvalue hpart hreads (.assignUpvalue hr.1 hr.2)

theorem assignName_ready (hglobals : c.globals.Sound) (h : At L E y (.live ⟨k, x.watch⟩) s)
    (ha : Around L E y x k) (span target : Span) (n : Bytes) (hvalue : value.Sound E.counts)
    (hpart : L.Has value) : Runs c (assignName span target n value) s (Ready L) := by
  refine (resolve_at h ha.describes ha.fits.floor hglobals target n).bind ?_
  rintro r s ⟨E', hE, h, hr⟩
  replace ha := ha.mono hE
  replace hvalue := hvalue.mono hE.counts
  dsimp only
  split
  · refine (binding_at h _).bind ?_
    rintro b _ ⟨rfl, -⟩
    rw [pure_bind]
    exact assignTo_ready h ha span n hvalue hpart _ r hr
  · rw [pure_bind]
    exact assignTo_ready h ha span n hvalue hpart _ r hr

theorem assign_ready (hglobals : c.globals.Sound) (h : At L E y (.live ⟨k, x.watch⟩) s)
    (ha : Around L E y x k) (hown : L.own = []) (span : Span) {target : Expr}
    (htarget : target.Sound E.counts)
    (hvalue : value.Sound E.counts) (hexpr : L.origin.expr = .assign span target value) :
    Runs c (assign span target value) s (Ready L) := by
  have hparts : L.Has target ∧ L.Has value :=
    ⟨.inl (by rw [hexpr]; exact List.mem_cons_self), .inl (by simp [hexpr, Expr.parts])⟩
  unfold assign
  split
  · exact .pure (.assigned h ha hown hexpr hvalue)
  · exact assignName_ready hglobals h ha span _ _ hvalue hparts.2
  · exact andThen_ready h (ha.push ha.describes ha.fits (.assignTarget hvalue))
      ⟨List.forall_mem_singleton.2 hparts.2, hparts.1⟩ htarget

theorem resumeAssignValue_ready {x' : Context} (h : At L E y (.live ⟨.value :: l, x'.watch⟩) s)
    (hx' : x'.Describes E y) (hin : Inside L E y.waiting x k) (hwatch : x'.watch = x.watch)
    {span : Span} {store : Opcode} {operand : Int}
    (hw : (Waiting.assignValue span store operand).Takes E x' l x k) :
    Runs c (resumeAssignValue span store operand) s (Ready L) := by
  refine Runs.bind (modifyCurrent_at (fun y => { y with olds := y.olds.drop 1 }) h fun _ => rfl)
    fun _ s h => ?_
  cases hw with
  | assignLocal hslot =>
    exact Runs.bind (opCount_at h (.store _ (.inl rfl) hslot) rfl rfl nofun) fun _ _ h =>
      give_ready (x := x) h ⟨hin, hx'.ofAssign⟩
  | assignUpvalue hlower hupper =>
    exact Runs.bind (opCount_at h (.assignUpvalue _ rfl hlower hupper) rfl rfl nofun)
      fun _ _ h => give_ready (x := x) h ⟨hin, hx'.ofAssign⟩
  | assignThrough =>
    refine Runs.bind (opCount_at h (.through 1 k (.inl rfl) rfl) rfl rfl ?_) fun _ _ h =>
      give_ready (x := x) h ⟨hin, hx'.ofAssign⟩
    rw [hwatch]
    exact hin.catches (List.suffix_append _ _)

end Compiling

end StagedScript
