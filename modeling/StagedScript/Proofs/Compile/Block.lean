import StagedScript.Proofs.Compile.Operand

/-!
# Blocks, handlers and declarations

A block brings a level of declarations into the context.  Those with slots lie in the layout above
the one on entry, and constants have no slot, so a declaration that is bound as a slot is one.
-/

namespace StagedScript

variable {L : Log} {E E' : Env} {y : Nesting} {cur : Cursor} {s : CompileState} {c : Settings}
  {x : Context} {l k : Layout} {vars lets defs : List Decl}

namespace Compiling

/-! ### Handlers -/

variable {b : BlockScope} {hs : HandlerScope} {rest : List Expr}

theorem handlerBody_ready (h : At L E y (.live ⟨.value :: k, x.watch⟩) s) (ha : Around L E y x k)
    (hh : hs.Fits E x k) (hparts : ∀ e ∈ hs.clause.body :: Handler.parts hs.later, L.Has e) :
    Runs c (handlerBody hs) s (Ready L) := by
  have hl : k <:+ .value :: k := List.suffix_cons _ _
  refine (current_at h).bind ?_
  rintro fn _ ⟨rfl, hfn, -⟩
  have hrecords := ha.records hfn
  have hx := ha.describes.withNames [] ((ha.describes.separate ha.fits.floor).mono (.refl E) hl)
  obtain ⟨hbody, hlater⟩ := List.forall_mem_cons.1 hparts
  -- the error may get a name, and the rest is the same with and without it
  have finish : ∀ {n : Int} {s : CompileState},
      Declares L E y (x.withNames (.value :: k) []) n (.live ⟨.value :: k, x.watch⟩) s →
      Runs c (do
        modifyCurrent ({ · with handling := some hs.guarded })
        andThen hs.clause.body (.handlerBody hs fn.scope fn.handling)) s (Ready L) := by
    rintro n s ⟨E₁, y₁, ids, hE, h, hx, hy, -⟩
    replace ha := ha.mono hE
    refine Runs.bind (modifyCurrent_at ({ · with handling := some hs.guarded }) h fun _ => rfl)
      fun _ s h => ?_
    refine andThen_ready (x := (x.inHandler hs.guarded (.value :: k)).declaring ids) h
      ⟨⟨congrArg (fun r : Records => { r with handling := some hs.guarded }) hx.records, hx.names,
        hx.apart⟩, .declaring ?_ ids, x, k, ?_, hy ▸ ha.toInside⟩ ⟨hlater, hbody⟩
      (hh.body.mono hE.counts)
    · refine { ha.fits.withNames hl [] with handling := ?_ }
      rintro _ ⟨⟩
      exact ⟨k, hE.labels _ _ hh.retry, hh.depth, hl⟩
    · rw [show fn.scope = x.scope from congrArg (·.scope) hrecords,
        show fn.handling = x.handling from congrArg (·.handling) hrecords]
      exact .handlerBody (hh.mono hE)
  have hstart : Declares L E y (x.withNames (.value :: k) []) hs.guarded.depth
      (.live ⟨.value :: k, x.watch⟩) s :=
    ⟨E, y, [], .refl E, h, hx, rfl, hh.depth ▸ (ha.describes.separate ha.fits.floor).below⟩
  refine .ite (fun _ => ?_) fun _ => finish hstart
  rw [← bind_assoc]
  refine (declareNew_at hstart ⟨rfl, rfl⟩ rfl ?_).bind fun _ s hd => finish hd
  rw [hh.depth]
  exact Layout.kindAt?_cons_length _ _

theorem handlerClauses_ready (h : At L E y (.live ⟨.value :: k, x.watch⟩) s) (ha : Around L E y x k)
    (span : Span) {guarded : Protected} (hretry : E.labels[guarded.retry]? = some ⟨k, .unknown⟩)
    (hdepth : guarded.depth = k.length) {done : Label} (hdone : x.EndsAt E k done)
    {clauses : List Handler} (hclauses : Handler.AllSound E.counts clauses)
    (hparts : ∀ e ∈ Handler.parts clauses, L.Has e) :
    Runs c (handlerClauses span guarded done clauses) s (Ready L) := by
  unfold handlerClauses
  cases clauses with
  | nil =>
    refine Runs.bind (emit_behind h (.raise k rfl) rfl (.plain rfl rfl)
      (ha.catches (List.suffix_refl k))) fun _ s h => ?_
    exact bindDone_ready h ha nofun hdone (by rw [hdepth])
  | cons clause later =>
    refine (newLabel_at h ⟨.value :: k, x.watch⟩).bind ?_
    rintro skip s ⟨E₁, hE, hskip, h⟩
    replace ha := ha.mono hE
    have hall := Handler.allSound_iff.1 (hclauses.mono hE.counts)
    have hclause := hall clause List.mem_cons_self
    have hh : HandlerScope.Fits E₁ x k ⟨span, guarded, clause, later, done, skip⟩ :=
      ⟨hdone.mono hE, hskip, hE.labels _ _ hretry, hdepth, hclause.2,
        Handler.allSound_iff.2 fun a ha => hall a (List.mem_cons_of_mem _ ha)⟩
    obtain ⟨hbody, hrest⟩ := List.forall_mem_cons.1 hparts
    obtain ⟨htypesParts, hlater⟩ := List.forall_mem_append.1 hrest
    dsimp only
    split
    · exact handlerBody_ready h ha hh (List.forall_mem_cons.2 ⟨hbody, hlater⟩)
    · rename_i e rest htypes
      have hsound := hclause.1
      rw [htypes] at hsound htypesParts
      obtain ⟨he, hmore⟩ := List.forall_mem_cons.1 htypesParts
      refine andThen_ready h (ha.push ha.describes (ha.fits.mono (.refl _) (List.suffix_cons _ _))
        (.handlerTypes (j := 0) hh ?_ hsound.2)) ⟨?_, he⟩ hsound.1
      · rw [htypes, List.length_cons]
        omega
      · exact List.forall_mem_append.2 ⟨hmore, List.forall_mem_cons.2 ⟨hbody, hlater⟩⟩

theorem resumeHandlerTypes_ready {j : Nat}
    (h : At L E y (.live ⟨.value :: (Layout.values j ++ .value :: k), x.watch⟩) s)
    (ha : Around L E y x k) (hh : hs.Fits E x k)
    (hcount : hs.clause.types.length = j + 1 + rest.length) (hrest : Expr.AllSound E.counts rest)
    (hparts : ∀ e ∈ rest ++ hs.clause.body :: Handler.parts hs.later, L.Has e) :
    Runs c (resumeHandlerTypes hs rest) s (Ready L) := by
  have hsuf : k <:+ Layout.values (j + 1) ++ .value :: k :=
    (List.suffix_cons _ _).trans (List.suffix_append _ _)
  unfold resumeHandlerTypes
  cases rest with
  | nil =>
    refine Runs.bind (jump_at h (.catchOn (j + 1) k rfl (by simp [hcount])) hh.skip
      rfl (.refl _) rfl rfl nofun) fun _ s h => ?_
    exact handlerBody_ready h ha hh hparts
  | cons e rest =>
    obtain ⟨he, hlater⟩ := List.forall_mem_cons.1 hparts
    refine andThen_ready (l := Layout.values (j + 1) ++ .value :: k) h
      (ha.push ha.describes (ha.fits.mono (.refl E) hsuf) (.handlerTypes hh ?_ hrest.2))
      ⟨hlater, he⟩ hrest.1
    rw [hcount, List.length_cons]
    omega

theorem resumeHandlerBody_ready {ids : List BindingId}
    (h : At L E y (.live ⟨.value :: .value :: k, x.watch⟩) s)
    (hx : ((x.inHandler hs.guarded (.value :: k)).declaring ids).Describes E y)
    (hin : Inside L E y.waiting x k) (hh : hs.Fits E x k)
    (hparts : ∀ e ∈ Handler.parts hs.later, L.Has e) :
    Runs c (resumeHandlerBody hs x.scope x.handling) s (Ready L) := by
  refine Runs.bind (opCount_at h (.leave 1 k rfl rfl) rfl rfl nofun) fun _ s h => ?_
  refine Runs.bind (modifyCurrent_at ({ · with scope := x.scope, handling := x.handling }) h
    fun _ => rfl) fun _ s h => ?_
  refine Runs.bind (goto_at h hh.done) fun _ s h => ?_
  refine Runs.bind (bindLabel_dead h hh.skip (by simp [hh.depth])) fun _ s h => ?_
  have hx' : ((x.withNames (.value :: k) []).declaring ids).Describes E
      { y with handling := x.handling } :=
    ⟨congrArg (fun r : Records => { r with handling := x.handling }) hx.records, hx.names, hx.apart⟩
  exact handlerClauses_ready h ⟨hin, hx'.ofNames⟩ hs.span hh.retry hh.depth hh.done hh.later hparts

/-! ### Blocks -/

/-- Declarations of one kind are reserved, in successive slots or as constants. -/
theorem reserve_at {make : Decl → Int → Binding} {ids : List BindingId} {height : Int}
    (source : Bytes) (h : At L E y cur s) (hsep : E.Separate l height ids) (ds : List Decl)
    (seen : List (Bytes × Nat)) (slot : Int)
    (hmake : ∀ d n, (make d n).value = .nil ∧ (make d n).placeholder = none)
    (hslots : ∀ d (i : Nat), i < ds.length → ∀ n, (make d (slot + i)).slot? = some n →
      n = height + i ∧ l.kindAt? n = some .value) :
    Runs c (reserve source make seen slot ds) s fun r s' => r.2.length = ds.length ∧
      ∃ E' news, E.Extends E' ∧ At L E' { y with reserved := news ++ y.reserved } cur s' ∧
        news.map (·.1) = (ds.map (·.id)).reverse ∧
        (∀ e ∈ news, ∃ d n, E'.slots[e.2]? = some (make d n).slot?) ∧
        E'.Separate l (height + ds.length) (news.map (·.2) ++ ids) := by
  induction ds generalizing E y s seen slot height ids with
  | nil => exact .pure ⟨rfl, E, [], .refl E, h, rfl, by simp, by simpa using hsep⟩
  | cons d ds ih =>
    unfold reserve
    dsimp only
    split
    · exact Runs.throw.bind (P := fun _ _ => False) nofun
    refine (newBinding_at h ⟨by rw [(hmake d slot).1]; trivial, by simp [(hmake d slot).2]⟩).bind ?_
    rintro id s ⟨E₁, hE₁, hid, h⟩
    refine Runs.bind (modifyCurrent_at (fun y => { y with reserved := (d.id, id) :: y.reserved }) h
      fun _ => rfl) fun _ s h => ?_
    -- the slots so far and the new one are apart
    have hsep := (hsep.mono hE₁ (List.suffix_refl l)).cons hid fun n hn => by
      simpa using hslots d 0 (by simp) n (by simpa using hn)
    refine (ih h hsep _ (slot + 1) fun d i hi n hn => ?_).bind ?_
    · have := hslots d (i + 1) (by simpa using hi) n (by rw [← hn]; congr 2; push_cast; omega)
      push_cast at this
      exact this.imp_left fun hn => by omega
    rintro ⟨seen', infos⟩ s ⟨hlength, E₂, news, hE₂, h, hkeys, hnews, hsep⟩
    refine .pure ⟨by simp [hlength], E₂, news ++ [(d.id, id)], hE₁.trans hE₂, ?_,
      by simp [hkeys], List.forall_mem_append.2 ⟨hnews, ?_⟩, ?_⟩
    · simpa using h
    · exact List.forall_mem_singleton.2 ⟨d, slot, hE₂.slots _ _ hid⟩
    · rw [show height + ((d :: ds).length : Int) = height + 1 + ds.length by simp; omega]
      simpa using hsep

theorem describes_ofBlock {slotted : List Nat} {own ids : List BindingId}
    (h : ((x.inBlock b slotted l own).declaring ids).Describes E y) :
    x.Describes E { y with
      scope := x.scope
      reserved := y.reserved.filter fun r => !(b.decls.map (·.id)).contains r.1
      guards := x.guards } where
  records := congrArg (fun r : Records => { r with scope := x.scope, guards := x.guards }) h.records
  names := h.names.2.2.2
  apart := h.apart.subset
    (NameLevel.known_subset h.names.2.2.1 (List.filter_subset_self _) (List.subset_cons_self _ _))

section

variable {slotted : List Nat} {own ids : List BindingId}
  (hx : ((x.inBlock b slotted (Layout.values b.slots ++ k) own).declaring ids).Describes E y)
  (hin : Inside L E y.waiting x k) (hb : b.Fits E x k vars lets defs)
  (hparts : ∀ e ∈ Handler.parts b.handlers, L.Has e)

include hx hin hb hparts

theorem closeBlock_ready
    (h : At L E y (.live ⟨.value :: k, Protected.watchOf (b.guarded.toList ++ x.guards).head?⟩) s) :
    Runs c (closeBlock b) s (Ready L) := by
  refine Runs.bind (modifyCurrent_at (fun y => { y with
      scope := b.scope
      reserved := y.reserved.filter fun r => !(b.decls.map (·.id)).contains r.1 }) h
    fun _ => rfl) fun _ s h => ?_
  have hguards : y.guards = b.guarded.toList ++ x.guards := congrArg (·.guards) hx.records
  replace hx := describes_ofBlock hx
  rw [hb.scope] at h
  cases hguarded : b.guarded with
  | none =>
    rw [hguarded] at h hguards
    rw [← show y.guards = x.guards from hguards] at hx
    exact give_ready h ⟨hin, hx⟩
  | some p =>
    rw [hguarded] at h hguards
    refine Runs.bind (modifyCurrent_at (fun y => { y with guards := y.guards.drop 1 }) h
      fun _ => rfl) fun _ s h => ?_
    rw [show y.guards.drop 1 = x.guards by rw [hguards]; rfl] at h
    refine (current_at h).bind ?_
    rintro fn _ ⟨rfl, hfn, -⟩
    rw [show fn.guards = x.guards from congrArg (·.guards) hfn]
    refine (newLabel_at h ⟨.value :: k, x.watch⟩).bind ?_
    rintro done s ⟨E₁, hE, hdone, h⟩
    replace hb := hb.mono hE
    replace hin := hin.mono hE
    obtain ⟨hhandler, hretry, hdepth⟩ := hb.guarded p hguarded
    have hactive : ∀ p, x.guards.head? = some p → p.Guards E₁ (.value :: k) := fun p hp =>
      (hin.fits.guards p (List.mem_of_mem_head? hp)).mono (.refl _) (List.suffix_cons _ _)
    -- neither the code after the block nor its handlers are protected by it
    refine (activate_at h x.guards.head? hactive).bind fun _ s h => ?_
    refine Runs.bind (goto_at h hdone) fun _ s h => ?_
    refine Runs.bind (bindLabel_dead h hhandler (by simp [hdepth])) fun _ s h => ?_
    refine (activate_at h x.guards.head? hactive).bind fun _ s h => ?_
    exact handlerClauses_ready (x := x) h ⟨hin, hx.mono hE⟩ b.span hretry hdepth hdone hb.handlers
      hparts

theorem endBlock_ready
    (h : At L E y (.live ⟨.value :: (Layout.values b.slots ++ k),
      Protected.watchOf (b.guarded.toList ++ x.guards).head?⟩) s) :
    Runs c (endBlock b) s (Ready L) := by
  refine .ite (fun _ => ?_) fun hslots => ?_
  · exact Runs.bind (opCount_at h (.leave _ k rfl rfl) rfl rfl nofun) fun _ _ h =>
      closeBlock_ready hx hin hb hparts h
  · rw [show b.slots = 0 by omega] at h
    exact closeBlock_ready hx hin hb hparts h

end

section

variable {own ids : List BindingId}
  (hx : ((x.inBlock b ((vars ++ lets).map (·.id)) (Layout.values b.slots ++ k) own).declaring
    ids).Describes E y) (hin : Inside L E y.waiting x k) (hb : b.Fits E x k vars lets defs)
  (hrest : Expr.StatementsSound E.counts vars lets defs rest) (hblock : L.IsBlock b)

include hx hin hb hrest hblock

theorem andThen_statement {e : Expr} (he : e.SoundStatement E.counts vars lets defs)
    (h : At L E y (.live ⟨Layout.values b.slots ++ k,
      Protected.watchOf (b.guarded.toList ++ x.guards).head?⟩) s)
    (hparts : ∀ e' ∈ e :: rest, e' ∈ L.origin.expr.statements) :
    Runs c (andThen e (.statements b rest)) s (Ready L) := by
  obtain ⟨hpart, hlater⟩ := List.forall_mem_cons.1 hparts
  refine (push_at h _).bind fun _ s h => .pure ?_
  refine .statement (x := (x.inBlock b _ _ _).declaring _) h
    ⟨hx, .declaring ?_ _, x, k, .statements hb hrest, hin⟩ ⟨⟨hblock, hlater⟩, hpart⟩ rfl
    ⟨_, rfl, rfl, congrArg (List.map (·.id)) hb.decls⟩ he
  have hk := hin.fits.mono (.refl E) (List.suffix_append (Layout.values b.slots) k)
  refine { hk with floor := List.suffix_refl _, guards := fun p hp => ?_ }
  obtain hp | hp := List.mem_append.1 hp
  · obtain ⟨hhandler, -, hdepth⟩ := hb.guarded p (Option.mem_toList.1 hp)
    exact ⟨k, hhandler, hdepth, List.suffix_append _ _⟩
  · exact hk.guards p hp

theorem resumeStatements_ready
    (h : At L E y (.live ⟨.value :: (Layout.values b.slots ++ k),
      Protected.watchOf (b.guarded.toList ++ x.guards).head?⟩) s)
    (hparts : ∀ e ∈ rest, e ∈ L.origin.expr.statements) :
    Runs c (resumeStatements b rest) s (Ready L) := by
  cases rest with
  | nil => exact endBlock_ready hx hin hb hblock.has_handlers h
  | cons e rest =>
    obtain ⟨he, hrest⟩ := Expr.statementsSound_cons.1 hrest
    refine (spanOf_runs e).bind ?_
    rintro span _ rfl
    exact Runs.bind (op_at h (.pop _ rfl) rfl rfl nofun) fun _ s h =>
      andThen_statement hx hin hb hrest hblock he h hparts

theorem startStatements_ready {line : Nat}
    (h : At L E y (.live ⟨Layout.values b.slots ++ k,
      Protected.watchOf (b.guarded.toList ++ x.guards).head?⟩) s)
    (hparts : ∀ e ∈ rest, e ∈ L.origin.expr.statements) :
    Runs c (match rest with
      | [] => do
        op line .nil
        endBlock b
      | e :: rest => andThen e (.statements b rest)) s (Ready L) := by
  cases rest with
  | nil =>
    refine Runs.bind (op_at h (.push _ (.inl rfl)) rfl rfl fun _ hraise => ?_) fun _ _ h =>
      endBlock_ready hx hin hb hblock.has_handlers h
    cases hraise
  | cons e rest =>
    obtain ⟨he, hrest⟩ := Expr.statementsSound_cons.1 hrest
    exact andThen_statement hx hin hb hrest hblock he h hparts

end

/-- The records agree with the context of a block when its names have been reserved. -/
theorem describes_inBlock {named constants : List (Nat × BindingId)} {height : Int}
    (hx : Context.Describes E { x with guards := b.guarded.toList ++ x.guards } y)
    (hdecls : b.decls = vars ++ lets ++ defs)
    (hsep : E.Separate l height (constants.map (·.2) ++ (named.map (·.2) ++
      NameLevel.known x.levels y.scope y.reserved)))
    (hnamed : ∀ r ∈ named, ∃ n, E.slots[r.2]? = some (some n))
    (hconstants : ∀ r ∈ constants, E.slots[r.2]? = some none)
    (hnamedIds : named.map (·.1) = ((vars ++ lets).map (·.id)).reverse)
    (hconstantIds : constants.map (·.1) = (defs.map (·.id)).reverse)
    (hapart : ∀ d ∈ vars ++ lets, d.id ∉ defs.map (·.id)) :
    ((x.inBlock b ((vars ++ lets).map (·.id)) l ((constants ++ named).map (·.2))).declaring
      []).Describes E { y with reserved := constants ++ named ++ y.reserved } := by
  have hyscope : y.scope = x.scope := congrArg (·.scope) hx.records
  refine ⟨hx.records, ?_, hsep.apart.subset fun id hid => ?_⟩
  · have hnames := hx.names
    simp only [hyscope] at hnames ⊢
    refine NameLevel.Agree.enter hnames (fun id hid => hsep.sees id ?_) (fun r hr => ?_)
      (fun r hr => .inl (hconstants r hr)) (fun d => ?_) fun d hd => ⟨?_, ?_⟩
    · simp only [List.mem_append, hyscope]
      exact .inr (.inr hid)
    · obtain ⟨n, hn⟩ := hnamed r hr
      refine ⟨n, hn, ((hsep.sees r.2 ?_).slot (.refl _) hn).2⟩
      simp only [List.mem_append]
      exact .inr (.inl (List.mem_map_of_mem hr))
    · rw [← show d ∈ (constants ++ named).map (·.1) ↔ _ from List.mem_map, List.map_append,
        hconstantIds, hnamedIds, hdecls]
      simp only [List.map_append, List.mem_append, List.mem_reverse]
      tauto
    · have hmem : d ∈ named.map (·.1) := by
        rw [hnamedIds]
        exact List.mem_reverse.2 hd
      exact List.mem_map.1 hmem
    · rintro r hr rfl
      have hmem : r.1 ∈ constants.map (·.1) := List.mem_map_of_mem hr
      rw [hconstantIds, List.mem_reverse] at hmem
      obtain ⟨d, hd, hid⟩ := List.mem_map.1 hd
      exact hapart d hd (by rwa [hid])
  · simp only [NameLevel.known, Context.declaring, Context.inBlock, List.flatMap_cons, List.map_append,
      List.mem_append] at hid ⊢
    tauto

theorem reserveNames_ready {g : Option Protected} {scope : List BindingId} {span : Span}
    {body : List Expr} {handlers : List Handler}
    (h : At L E y (.live ⟨k, Protected.watchOf (g.toList ++ x.guards).head?⟩) s)
    (hx : Context.Describes E { x with guards := g.toList ++ x.guards } y)
    (hin : Inside L E y.waiting x k) (hscope : scope = x.scope)
    (hg : ∀ p, g = some p → E.labels[p.handler]? = some ⟨.value :: k, .off⟩ ∧
      E.labels[p.retry]? = some ⟨k, .unknown⟩ ∧ p.depth = k.length)
    (hapart : ∀ d ∈ vars ++ lets, d.id ∉ defs.map (·.id))
    (hbody : Expr.StatementsSound E.counts vars lets defs body)
    (hhandlers : Handler.AllSound E.counts handlers)
    (hexpr : L.origin.expr = .block span vars lets defs body handlers)
    (hguarded : g.isSome = !handlers.isEmpty)
    (hinstalls : ∀ p, g = some p → InstallsAt L.past L.origin.expr L.origin.start p) :
    Runs c (do
      let base ← height
      let (seen, varInfos) ← reserve span.source
        (fun d slot => { name := d.name, line := d.line, slot, isVariable := true }) [] base vars
      let (seen, letInfos) ← reserve span.source
        (fun d slot => { name := d.name, line := d.line, slot }) seen (base + vars.length) lets
      let _ ← reserve span.source
        (fun d _ => { name := d.name, line := d.line, slot := -1, isConstant := true }) seen 0 defs
      let infos := varInfos ++ letInfos
      if !infos.isEmpty then enter span.first infos
      let b : BlockScope := ⟨span, vars ++ lets ++ defs, handlers, scope, infos.length, g⟩
      match body with
      | [] =>
        op span.first .nil
        endBlock b
      | e :: rest => andThen e (.statements b rest)) s (Ready L) := by
  refine (height_at h).bind ?_
  rintro _ _ ⟨rfl, rfl⟩
  have hsuf : k <:+ Layout.values (vars.length + lets.length) ++ k := List.suffix_append _ _
  -- slots are counted from the height before the instruction that makes room for all of them
  have hsep := (hx.separate hin.fits.floor).mono (.refl E) hsuf
  refine (reserve_at _ h hsep vars [] k.length (fun _ _ => ⟨rfl, rfl⟩) ?_).bind ?_
  · rintro d i hi n ⟨⟩
    exact ⟨rfl, Layout.kindAt?_values_append (by dsimp only; omega) (by dsimp only; omega)⟩
  rintro ⟨seen, varInfos⟩ s ⟨hvarInfos, E₁, vs, hE₁, h, hvkeys, hvs, hsep⟩
  refine (reserve_at _ h hsep lets seen (k.length + vars.length) (fun _ _ => ⟨rfl, rfl⟩) ?_).bind ?_
  · rintro d i hi n ⟨⟩
    exact ⟨rfl, Layout.kindAt?_values_append (by dsimp only; omega) (by dsimp only; omega)⟩
  rintro ⟨seen, letInfos⟩ s ⟨hletInfos, E₂, ls, hE₂, h, hlkeys, hls, hsep⟩
  refine (reserve_at _ h hsep defs seen 0 (fun _ _ => ⟨rfl, rfl⟩) ?_).bind ?_
  · rintro d i - n ⟨⟩
  rintro ⟨seen, infos⟩ s ⟨-, E₃, ds, hE₃, h, hdkeys, hds, hsep⟩
  have hE := (hE₁.trans hE₂).trans hE₃
  have hlength : (varInfos ++ letInfos).length = vars.length + lets.length := by
    rw [List.length_append, ← hvarInfos, ← hletInfos]
  dsimp only
  generalize varInfos ++ letInfos = infos at hlength ⊢
  rw [← hlength] at hsep
  set b : BlockScope := ⟨span, vars ++ lets ++ defs, handlers, scope, infos.length, g⟩
  have hb : b.Fits E₃ x k vars lets defs :=
    ⟨rfl, hscope, hhandlers.mono hE.counts, fun p hp =>
      have hp := hg p hp
      ⟨hE.labels _ _ hp.1, hE.labels _ _ hp.2.1, hp.2.2⟩⟩
  have hslots : ∀ r ∈ ls ++ vs, ∃ n, E₃.slots[r.2]? = some (some n) := by
    refine List.forall_mem_append.2 ⟨fun r hr => ?_, fun r hr => ?_⟩
    · obtain ⟨_, n, hslot⟩ := hls r hr
      exact ⟨n, hE₃.slots _ _ hslot⟩
    · obtain ⟨_, n, hslot⟩ := hvs r hr
      exact ⟨n, hE₃.slots _ _ (hE₂.slots _ _ hslot)⟩
  have hconstants : ∀ r ∈ ds, E₃.slots[r.2]? = some none := by
    intro r hr
    obtain ⟨_, _, hslot⟩ := hds r hr
    exact hslot
  have hx' := describes_inBlock (b := b) (hx.mono hE) rfl (by simpa using hsep) hslots hconstants
    (by simp [hvkeys, hlkeys]) hdkeys hapart
  rw [List.append_assoc, List.append_assoc] at hx'
  have hblock : L.IsBlock b := ⟨⟨span, vars, lets, defs, body, hexpr⟩, hguarded, hinstalls⟩
  have hparts : ∀ e ∈ body, e ∈ L.origin.expr.statements := fun e he => by rw [hexpr]; exact he
  refine .ite (fun _ => ?_) fun hempty => ?_
  · refine Runs.bind (emit_at h (.enter k rfl) rfl rfl (.plain rfl rfl) fun _ hraise => ?_)
      fun _ s h => startStatements_ready hx' (hin.mono hE) hb (hbody.mono hE.counts) hblock h hparts
    cases hraise
  · obtain rfl : infos = [] := by simpa using hempty
    exact startStatements_ready hx' (hin.mono hE) hb (hbody.mono hE.counts) hblock h hparts

theorem block_ready (h : At L E y (.live ⟨k, x.watch⟩) s) (ha : Around L E y x k)
    (hfresh : L.Fresh s) (hstart : L.origin.start = L.past.length) (span : Span)
    {body : List Expr} {handlers : List Handler}
    (hapart : ∀ d ∈ vars ++ lets, d.id ∉ defs.map (·.id))
    (hbody : Expr.StatementsSound E.counts vars lets defs body)
    (hhandlers : Handler.AllSound E.counts handlers)
    (hexpr : L.origin.expr = .block span vars lets defs body handlers) :
    Runs c (block span vars lets defs body handlers) s (Ready L) := by
  refine (current_at h).bind ?_
  rintro fn _ ⟨rfl, hfn, -⟩
  have hscope : fn.scope = x.scope := congrArg (·.scope) (ha.records hfn)
  refine .ite (fun hnone => ?_) fun hsome => ?_
  · rw [pure_bind]
    exact reserveNames_ready (g := none) h ha.describes ha.toInside hscope nofun hapart hbody
      hhandlers hexpr (by simp [hnone]) nofun
  · refine ((newLabel_at h ⟨.value :: k, .off⟩).and (newLabel_fresh hfresh)).bind ?_
    rintro handler s ⟨⟨E₁, hE₁, hhandler, h⟩, hfresh⟩
    refine ((newLabel_at h ⟨k, .unknown⟩).and (newLabel_fresh hfresh)).bind ?_
    rintro retry s ⟨⟨E₂, hE₂, hretry, h⟩, hfresh⟩
    refine (height_at h).bind ?_
    rintro _ _ ⟨rfl, rfl⟩
    refine Runs.bind ((bindLabel_live h hretry ⟨rfl, .inl rfl⟩ rfl).and
      (bindLabel_fresh hfresh _ _)) ?_
    rintro _ s ⟨h, hfresh⟩
    have hE := hE₁.trans hE₂
    replace hhandler := hE₂.labels _ _ hhandler
    replace ha := ha.mono hE
    set p : Protected := ⟨handler, retry, k.length⟩
    have hguards : p.Guards E₂ k := ⟨k, hhandler, rfl, List.suffix_refl k⟩
    refine Runs.bind (install_first h hguards hfresh) fun _ s h => ?_
    set m : Mark := ⟨{ Inst.plain span.first .install with count := k.length }, [handler],
      ⟨k, .unknown⟩, L.origin⟩
    have hm : L.Emits [m] := List.forall_mem_singleton.2 ⟨rfl, nofun⟩
    refine Runs.bind (modifyCurrent_at (fun y => { y with guards := p :: y.guards }) h
      fun _ => rfl) fun _ s h => ?_
    rw [pure_bind]
    have hx := ha.describes
    have hin := ha.toInside
    -- the instruction is the first one for the block, so its mark is at the start
    refine Runs.imp ?_ fun _ _ => Ready.later hm
    refine reserveNames_ready (x := x) (g := some p) h
      ⟨congrArg (fun r : Records => { r with guards := p :: r.guards }) hx.records, hx.names, hx.apart⟩
      ⟨hin.fits, hin.resumes, hin.frames⟩ hscope ?_ hapart
      (hbody.mono hE.counts) (hhandlers.mono hE.counts) hexpr (by simpa using hsome) ?_
    · rintro _ ⟨⟩
      exact ⟨hhandler, hretry, rfl⟩
    · rintro _ ⟨⟩
      exact ⟨m, by simp [Log.withMarks, hstart], rfl, rfl, rfl, rfl, rfl⟩

end Compiling

end StagedScript
