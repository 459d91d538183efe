import StagedScript.Proofs.Compile.Code

/-!
# The constructs around an expression

While an expression is compiled, the constructs around it have slots and labels that later code will
use.  All these properties only ask for slots below a layout and for labels that have been made, and
are therefore kept when the stack grows and when more is known.
-/

namespace StagedScript

namespace Env

def HasSlot (E : Env) (l : Layout) (id : BindingId) : Prop :=
  ∃ n, E.slots[id]? = some (some n) ∧ l.kindAt? n = some .value

/-- A declaration is a constant or has a slot of a layout. -/
def Sees (E : Env) (l : Layout) (id : BindingId) : Prop :=
  E.slots[id]? = some none ∨ E.HasSlot l id

variable {E E' : Env} {l l' : Layout} {id : BindingId}

theorem HasSlot.mono (h : E.HasSlot l id) (hE : E.Extends E') (hl : l <:+ l') :
    E'.HasSlot l' id := by
  obtain ⟨n, hn, hkind⟩ := h
  exact ⟨n, hE.slots _ _ hn, Layout.kindAt?_of_suffix hl hkind⟩

theorem Sees.mono (h : E.Sees l id) (hE : E.Extends E') (hl : l <:+ l') : E'.Sees l' id :=
  h.imp (hE.slots _ _) (HasSlot.mono · hE hl)

theorem Sees.slot (h : E.Sees l id) (hE : E.Extends E') {n : Int}
    (hn : E'.slots[id]? = some (some n)) :
    E.slots[id]? = some (some n) ∧ l.kindAt? n = some .value := by
  obtain hnone | ⟨m, hm, hkind⟩ := h
  · cases (hE.slots _ _ hnone).symm.trans hn
  · cases (hE.slots _ _ hm).symm.trans hn
    exact ⟨hm, hkind⟩

/-- Different declarations have different slots. -/
def Apart (E : Env) (ids : List BindingId) : Prop :=
  ∀ a ∈ ids, ∀ b ∈ ids, ∀ n, E.slots[a]? = some (some n) → E.slots[b]? = some (some n) → a = b

/-- The slots of declarations lie below a height. -/
def Below (E : Env) (height : Int) (ids : List BindingId) : Prop :=
  ∀ a ∈ ids, ∀ n, E.slots[a]? = some (some n) → n < height

variable {ids ids' : List BindingId} {n : Int}

theorem Apart.subset (h : E.Apart ids) (hids : ids' ⊆ ids) : E.Apart ids' :=
  fun a ha b hb => h a (hids ha) b (hids hb)

/-- Declarations are seen, and their slots are different and lie below a height. -/
structure Separate (E : Env) (l : Layout) (height : Int) (ids : List BindingId) : Prop where
  sees : ∀ id ∈ ids, E.Sees l id
  apart : E.Apart ids
  below : E.Below height ids

theorem Separate.mono (h : E.Separate l n ids) (hE : E.Extends E') (hl : l <:+ l') :
    E'.Separate l' n ids where
  sees id hid := (h.sees id hid).mono hE hl
  apart a ha b hb m hma hmb :=
    h.apart a ha b hb m ((h.sees a ha).slot hE hma).1 ((h.sees b hb).slot hE hmb).1
  below a ha m hm := h.below a ha m ((h.sees a ha).slot hE hm).1

theorem Separate.cons (h : E.Separate l n ids) {o : Option Int} (hid : E.slots[id]? = some o)
    (ho : ∀ m, o = some m → m = n ∧ l.kindAt? m = some .value) :
    E.Separate l (n + 1) (id :: ids) := by
  have hslot : ∀ m, E.slots[id]? = some (some m) → m = n := fun m hm =>
    (ho m (by simpa using hid.symm.trans hm)).1
  have hfree : ∀ a ∈ ids, ∀ m, E.slots[a]? = some (some m) → E.slots[id]? ≠ some (some m) := by
    intro a ha m hm hid
    have := h.below a ha m hm
    have := hslot m hid
    omega
  refine ⟨List.forall_mem_cons.2 ⟨?_, h.sees⟩, fun a ha b hb m hma hmb => ?_,
    List.forall_mem_cons.2 ⟨fun m hm => ?_, fun a ha m hm => ?_⟩⟩
  · cases o with
    | none => exact .inl hid
    | some m => exact .inr ⟨m, hid, (ho m rfl).2⟩
  · obtain rfl | ha' := List.mem_cons.1 ha <;> obtain rfl | hb' := List.mem_cons.1 hb
    · rfl
    · exact absurd hma (hfree b hb' m hmb)
    · exact absurd hmb (hfree a ha' m hma)
    · exact h.apart a ha' b hb' m hma hmb
  · have := hslot m hm
    omega
  · have := h.below a ha m hm
    omega

end Env

/-- The handlers of a block find their part of the stack in a layout. -/
def Protected.Guards (E : Env) (l : Layout) (p : Protected) : Prop :=
  ∃ base : Layout, E.labels[p.handler]? = some ⟨.value :: base, .off⟩ ∧ p.depth = base.length ∧
    base <:+ l

/-- The statements of a block can be tried again from a layout. -/
def Protected.Retries (E : Env) (l : Layout) (p : Protected) : Prop :=
  ∃ base : Layout, E.labels[p.retry]? = some ⟨base, .unknown⟩ ∧ p.depth = base.length ∧ base <:+ l

/-- A loop can be left and gone on with from a layout. -/
structure LoopScope.Surrounds (E : Env) (l : Layout) (s : LoopScope) : Prop where
  exit : ∃ m : Layout, E.labels[s.exit]? = some ⟨.value :: m, Protected.watchOf s.active⟩ ∧
    s.exitDepth = m.length ∧ m <:+ l
  next : ∃ m : Layout, E.labels[s.next]? = some ⟨m, Protected.watchOf s.active⟩ ∧
    s.nextDepth = m.length ∧ m <:+ l
  active : ∀ p, s.active = some p → p.Guards E l

/-- The value that an assignment replaces can be read with a layout. -/
def OldValue.Reads (E : Env) (l : Layout) (o : OldValue) : Prop :=
  (o.op = .local ∨ o.op = .localIndirect) ∧ l.kindAt? o.index = some .value ∨
    o.op = .upvalue ∧ 0 ≤ o.index ∧ o.index < E.captures

section

variable {E E' : Env} {l l' : Layout} (hE : E.Extends E') (hl : l <:+ l')

include hE hl

theorem Protected.Guards.mono {p : Protected} (h : p.Guards E l) : p.Guards E' l' :=
  h.imp fun _ hb => ⟨hE.labels _ _ hb.1, hb.2.1, hb.2.2.trans hl⟩

theorem Protected.Retries.mono {p : Protected} (h : p.Retries E l) : p.Retries E' l' :=
  h.imp fun _ hb => ⟨hE.labels _ _ hb.1, hb.2.1, hb.2.2.trans hl⟩

theorem LoopScope.Surrounds.mono {s : LoopScope} (h : s.Surrounds E l) : s.Surrounds E' l' where
  exit := h.exit.imp fun _ hm => ⟨hE.labels _ _ hm.1, hm.2.1, hm.2.2.trans hl⟩
  next := h.next.imp fun _ hm => ⟨hE.labels _ _ hm.1, hm.2.1, hm.2.2.trans hl⟩
  active p hp := (h.active p hp).mono hE hl

theorem OldValue.Reads.mono {o : OldValue} (h : o.Reads E l) : o.Reads E' l' := by
  obtain ⟨hop, hkind⟩ | ⟨hop, hlower, hupper⟩ := h
  · exact .inl ⟨hop, Layout.kindAt?_of_suffix hl hkind⟩
  · have := hE.captures
    exact .inr ⟨hop, hlower, by omega⟩

end

/-- A construct that brings names into scope. -/
structure NameLevel where
  /-- The identities of the declarations of a block. -/
  ids : List Nat
  slotted : List Nat
  /-- The layout with all slots of names. -/
  floor : Layout
  scope : List BindingId
  own : List BindingId

/-- What is known about the constructs around an expression, the innermost first. -/
structure Context extends Records where
  levels : List NameLevel

namespace Context

def floor (x : Context) : Layout :=
  match x.levels with
  | [] => []
  | lv :: _ => lv.floor

def own (x : Context) : List BindingId :=
  match x.levels with
  | [] => []
  | lv :: _ => lv.own

/-- The innermost block has declarations, and the slots are for those of the first two kinds. -/
def Declares (x : Context) (vars lets defs : List Decl) : Prop :=
  ∃ lv ∈ x.levels.head?, lv.slotted = (vars ++ lets).map (·.id) ∧
    lv.ids = (vars ++ lets ++ defs).map (·.id)

def watch (x : Context) : Watch Label := Protected.watchOf x.guards.head?

def declaring (x : Context) (ids : List BindingId) : Context := { x with scope := ids ++ x.scope }

def withNames (x : Context) (l : Layout) (own : List BindingId) : Context :=
  { x with levels := ⟨[], [], l, x.scope, own⟩ :: x.levels }

def ofParams (n : Nat) : Context := ⟨⟨[], [], [], none, []⟩, [⟨[], [], Layout.values n, [], []⟩]⟩

/-- Everything around an expression is found in a layout. -/
structure Fits (E : Env) (x : Context) (l : Layout) : Prop where
  floor : x.floor <:+ l
  loops : ∀ s ∈ x.loops, s.Surrounds E l
  guards : ∀ p ∈ x.guards, p.Guards E l
  handling : ∀ p, x.handling = some p → p.Retries E l
  olds : ∀ o ∈ x.olds, o.Reads E l

variable {E E' : Env} {x : Context} {l l' : Layout}

theorem Fits.mono (h : x.Fits E l) (hE : E.Extends E') (hl : l <:+ l') : x.Fits E' l' where
  floor := h.floor.trans hl
  loops s hs := (h.loops s hs).mono hE hl
  guards p hp := (h.guards p hp).mono hE hl
  handling p hp := (h.handling p hp).mono hE hl
  olds o ho := (h.olds o ho).mono hE hl

/-- The active handler catches errors that are raised above a layout that fits. -/
theorem Fits.catches (h : x.Fits E l) (hl : l <:+ l') : x.watch.Catches (E.labels[·]?) l' := by
  unfold watch
  cases hg : x.guards with
  | nil => trivial
  | cons p ps =>
    obtain ⟨base, hlabel, -, hbase⟩ := h.guards p (by simp [hg])
    exact ⟨base, ⟨_, hlabel, .refl _⟩, hbase.trans hl⟩

theorem Fits.withNames (h : x.Fits E l) (hl : l <:+ l') (own : List BindingId) :
    (x.withNames l' own).Fits E l' :=
  { h.mono (.refl E) hl with floor := List.suffix_refl l' }

theorem Fits.declaring (h : x.Fits E l) (ids : List BindingId) : (x.declaring ids).Fits E l :=
  ⟨h.floor, h.loops, h.guards, h.handling, h.olds⟩

theorem ofParams_fits (E : Env) (n : Nat) : (ofParams n).Fits E (Layout.values n) :=
  ⟨List.suffix_refl _, by simp [ofParams], by simp [ofParams], by simp [ofParams],
    by simp [ofParams]⟩

end Context

/-- All declarations that have been made: those in scope, the reserved ones, and those of blocks. -/
def NameLevel.known (levels : List NameLevel) (scope : List BindingId)
    (reserved : List (Nat × BindingId)) : List BindingId :=
  scope ++ (reserved.map (·.2) ++ levels.flatMap (·.own))

/-- Declarations agree with the constructs they belong to: at each level, those reserved for the
names of the block are its own, and those with slots have slots. -/
def NameLevel.Agree (E : Env) : List NameLevel → List BindingId → List (Nat × BindingId) → Prop
  | [], scope, reserved => ∀ id ∈ known [] scope reserved, E.Sees [] id
  | lv :: levels, scope, reserved =>
    (∀ id ∈ known (lv :: levels) scope reserved, E.Sees lv.floor id) ∧
    (∀ d id, reserved.lookup d = some id →
      (d ∈ lv.ids → id ∈ lv.own) ∧ (d ∈ lv.slotted → E.HasSlot lv.floor id)) ∧
    lv.scope ⊆ scope ∧
    NameLevel.Agree E levels lv.scope (reserved.filter fun r => !lv.ids.contains r.1)

/-- What the compiler records about the constructs around an expression, and about names. -/
structure Nesting extends Records where
  reserved : List (Nat × BindingId)
  waiting : List Waiting

/-- What a function under construction records about the constructs around an expression. -/
def FunctionState.records (fn : FunctionState) : Records :=
  ⟨fn.scope, fn.loops, fn.guards, fn.handling, fn.olds⟩

def FunctionState.nesting (fn : FunctionState) : Nesting := ⟨fn.records, fn.reserved, fn.waiting⟩

/-- The records of the compiler agree with the context, and declarations do not share slots. -/
structure Context.Describes (E : Env) (x : Context) (y : Nesting) : Prop where
  records : y.toRecords = x.toRecords
  names : NameLevel.Agree E x.levels y.scope y.reserved
  apart : E.Apart (NameLevel.known x.levels y.scope y.reserved)

variable {E E' : Env}

section

variable {scope : List BindingId} {reserved : List (Nat × BindingId)} {levels : List NameLevel}

theorem NameLevel.Agree.mono (h : NameLevel.Agree E levels scope reserved) (hE : E.Extends E') :
    NameLevel.Agree E' levels scope reserved := by
  induction levels generalizing scope reserved with
  | nil => exact fun id hid => (h id hid).mono hE (List.suffix_refl _)
  | cons lv levels ih =>
    exact ⟨fun id hid => (h.1 id hid).mono hE (List.suffix_refl _), fun d id hid =>
      (h.2.1 d id hid).imp_right fun hslot hd => (hslot hd).mono hE (List.suffix_refl _), h.2.2.1,
      ih h.2.2.2⟩

theorem lookup_filter_fst {α β : Type} [BEq α] [LawfulBEq α] (q : α → Bool) (a : α)
    (xs : List (α × β)) :
    (xs.filter fun r => q r.1).lookup a = if q a then xs.lookup a else none := by
  induction xs with
  | nil => simp
  | cons r xs ih =>
    obtain ⟨b, c⟩ := r
    by_cases hab : a = b
    · subst hab
      by_cases hq : q a <;> simp [hq, ih]
    · by_cases hq : q b <;> simp [hq, ih, List.lookup_cons, beq_eq_false_iff_ne.2 hab]

theorem NameLevel.known_subset {scope' : List BindingId} {reserved' : List (Nat × BindingId)}
    {levels' : List NameLevel} (hscope : scope' ⊆ scope) (hreserved : reserved' ⊆ reserved)
    (hlevels : levels' ⊆ levels) :
    known levels' scope' reserved' ⊆ known levels scope reserved := by
  intro id hid
  simp only [known, List.mem_append, List.mem_map, List.mem_flatMap] at hid ⊢
  exact hid.imp (@hscope id) (Or.imp (fun ⟨r, hr, hid⟩ => ⟨r, hreserved hr, hid⟩)
    fun ⟨lv, hlv, hid⟩ => ⟨lv, hlevels hlv, hid⟩)

theorem NameLevel.Agree.filter (h : NameLevel.Agree E levels scope reserved) (q : Nat → Bool) :
    NameLevel.Agree E levels scope (reserved.filter fun r => q r.1) := by
  have known_filter : ∀ (levels : List NameLevel) (scope : List BindingId)
      (reserved : List (Nat × BindingId)),
      known levels scope (reserved.filter fun r => q r.1) ⊆ known levels scope reserved := fun _ _ _ =>
    known_subset (List.Subset.refl _) (List.filter_subset_self _) (List.Subset.refl _)
  induction levels generalizing scope reserved with
  | nil => exact fun id hid => h id (known_filter _ _ _ hid)
  | cons lv levels ih =>
    refine ⟨fun id hid => h.1 id (known_filter _ _ _ hid), fun d id hid => ?_, h.2.2.1, ?_⟩
    · rw [lookup_filter_fst] at hid
      split at hid
      · exact h.2.1 d id hid
      · cases hid
    · have := ih h.2.2.2
      rw [List.filter_filter] at this ⊢
      simpa only [Bool.and_comm] using this

theorem mem_of_lookup_eq_some {α β : Type} [BEq α] [LawfulBEq α] {a : α} {b : β}
    {xs : List (α × β)} (h : xs.lookup a = some b) : (a, b) ∈ xs := by
  obtain ⟨l₁, l₂, rfl, -⟩ := List.lookup_eq_some_iff.1 h
  simp

/-- The declarations of a block are reserved, those that have slots before the constants. -/
theorem NameLevel.Agree.enter {ids slotted : List Nat} {l : Layout}
    {named constants : List (Nat × BindingId)} (h : NameLevel.Agree E levels scope reserved)
    (hsees : ∀ id ∈ known levels scope reserved, E.Sees l id)
    (hnamed : ∀ r ∈ named, E.HasSlot l r.2) (hconstants : ∀ r ∈ constants, E.Sees l r.2)
    (hids : ∀ d, d ∈ ids ↔ ∃ r ∈ constants ++ named, r.1 = d)
    (hslotted : ∀ d ∈ slotted, (∃ r ∈ named, r.1 = d) ∧ ∀ r ∈ constants, r.1 ≠ d) :
    NameLevel.Agree E (⟨ids, slotted, l, scope, (constants ++ named).map (·.2)⟩ :: levels) scope
      (constants ++ named ++ reserved) := by
  have hnew : ∀ r ∈ constants ++ named, E.Sees l r.2 :=
    List.forall_mem_append.2 ⟨hconstants, fun r hr => .inr (hnamed r hr)⟩
  refine ⟨fun id hid => ?_, fun d id hid => ⟨fun hd => ?_, fun hd => ?_⟩, List.Subset.refl _, ?_⟩
  · have hid : id ∈ known levels scope reserved ∨ ∃ r ∈ constants ++ named, r.2 = id := by
      simp only [known, List.map_append, List.flatMap_cons, List.mem_append, List.mem_map] at hid ⊢
      grind
    obtain hid | ⟨r, hr, rfl⟩ := hid
    · exact hsees id hid
    · exact hnew r hr
  · obtain ⟨r, hr, rfl⟩ := (hids d).1 hd
    obtain ⟨id', hid'⟩ : ∃ id', (constants ++ named).lookup r.1 = some id' :=
      Option.isSome_iff_exists.1 (List.lookup_isSome_iff.2 ⟨r, hr, by simp⟩)
    rw [List.lookup_append, hid'] at hid
    obtain rfl : id' = id := by simpa using hid
    exact List.mem_map_of_mem (mem_of_lookup_eq_some hid')
  · obtain ⟨⟨r, hr, rfl⟩, hne⟩ := hslotted d hd
    have hnone : constants.lookup r.1 = none :=
      List.lookup_eq_none_iff.2 fun r' hr' => by simpa using (hne r' hr').symm
    obtain ⟨id', hid'⟩ : ∃ id', named.lookup r.1 = some id' :=
      Option.isSome_iff_exists.1 (List.lookup_isSome_iff.2 ⟨r, hr, by simp⟩)
    rw [List.lookup_append, List.lookup_append, hnone, hid'] at hid
    obtain rfl : id' = id := by simpa using hid
    exact hnamed _ (mem_of_lookup_eq_some hid')
  · have hnil : (constants ++ named).filter (fun r => !ids.contains r.1) = [] := by
      refine List.filter_eq_nil_iff.2 fun r hr => ?_
      simpa using (hids r.1).2 ⟨r, hr, rfl⟩
    rw [List.filter_append, hnil, List.nil_append]
    exact h.filter fun d => !ids.contains d

end

variable {x : Context} {y : Nesting}

section

variable (h : x.Describes E y)

include h

theorem Context.Describes.sees :
    ∀ id ∈ NameLevel.known x.levels y.scope y.reserved, E.Sees x.floor id := by
  have hnames := h.names
  unfold Context.floor
  cases hx : x.levels with
  | nil => exact fun id hid => by rw [hx] at hnames; exact hnames id hid
  | cons lv levels => exact fun id hid => by rw [hx] at hnames; exact hnames.1 id hid

theorem Context.Describes.scope : ∀ id ∈ y.scope, E.Sees x.floor id :=
  fun id hid => h.sees id (List.mem_append_left _ hid)

/-- The slots of declarations are different, and lie in every layout that fits. -/
theorem Context.Describes.separate {l : Layout} (hl : x.floor <:+ l) :
    E.Separate l l.length (NameLevel.known x.levels y.scope y.reserved) :=
  have hsees id hid := (h.sees id hid).mono (.refl E) hl
  ⟨hsees, h.apart, fun id hid _ hn =>
    (Layout.lt_of_kindAt? ((hsees id hid).slot (.refl E) hn).2).2⟩

theorem Context.Describes.mono (hE : E.Extends E') : x.Describes E' y :=
  ⟨h.records, h.names.mono hE, ((h.separate (List.suffix_refl _)).mono hE (List.suffix_refl _)).apart⟩

theorem Context.Describes.withWaiting (ws : List Waiting) :
    x.Describes E { y with waiting := ws } :=
  ⟨h.records, h.names, h.apart⟩

theorem Context.Describes.declare {id : BindingId} (hid : E.Sees x.floor id)
    (hapart : E.Apart (id :: NameLevel.known x.levels y.scope y.reserved)) :
    (x.declaring [id]).Describes E { y with scope := id :: y.scope } := by
  refine ⟨congrArg (fun r : Records => { r with scope := id :: r.scope }) h.records, ?_, hapart⟩
  have hsees := List.forall_mem_cons.2 ⟨hid, h.sees⟩
  have hnames := h.names
  unfold Context.floor at hsees
  unfold Context.declaring
  cases hx : x.levels with
  | nil =>
    rw [hx] at hsees
    exact hsees
  | cons lv levels =>
    rw [hx] at hsees hnames
    exact ⟨hsees, hnames.2.1, List.Subset.trans hnames.2.2.1 (List.subset_cons_self _ _), hnames.2.2.2⟩

theorem Context.Describes.declareOwn {id : BindingId} (hid : id ∈ x.own) :
    (x.declaring [id]).Describes E { y with scope := id :: y.scope } := by
  have hknown : id ∈ NameLevel.known x.levels y.scope y.reserved := by
    unfold Context.own at hid
    cases hx : x.levels with
    | nil => simp [hx] at hid
    | cons lv levels => simp_all [NameLevel.known]
  exact h.declare (h.sees id hknown)
    (h.apart.subset (List.cons_subset.2 ⟨hknown, List.Subset.refl _⟩))

theorem Context.Describes.withNames {l : Layout} {height : Int} (own : List BindingId)
    (hown : E.Separate l height (own ++ NameLevel.known x.levels y.scope y.reserved)) :
    (x.withNames l own).Describes E y := by
  have hscope : y.scope = x.scope := congrArg (·.scope) h.records
  have hknown : NameLevel.known (x.withNames l own).levels y.scope y.reserved ⊆
      own ++ NameLevel.known x.levels y.scope y.reserved := by
    intro id hid
    simp only [NameLevel.known, Context.withNames, List.flatMap_cons, List.mem_append] at hid ⊢
    tauto
  refine ⟨h.records, ⟨fun id hid => hown.sees id (hknown hid), by simp, ?_, ?_⟩,
    hown.apart.subset hknown⟩
  · rw [hscope]
    exact List.Subset.refl _
  · simpa [hscope] using h.names

end

theorem Context.Describes.ofNames {l : Layout} {own ids : List BindingId}
    (h : ((x.withNames l own).declaring ids).Describes E y) :
    x.Describes E { y with scope := x.scope } where
  records := congrArg (fun r : Records => { r with scope := x.scope }) h.records
  names := by simpa using h.names.2.2.2
  apart := h.apart.subset
    (NameLevel.known_subset h.names.2.2.1 (List.Subset.refl _) (List.subset_cons_self _ _))

end StagedScript
