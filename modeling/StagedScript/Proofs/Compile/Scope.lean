import StagedScript.Proofs.Compile.Handover
import StagedScript.Proofs.Compile.Verified
import StagedScript.Proofs.Staging.Inline

/-!
# Scopes and slots while compiling

At the start of every round, the declarations of a function that may be used have different slots
below the height of its stack.  When an expression has been compiled, the scope and the records of
loops, handlers and assignments are those from before, with the declarations that a statement binds.
-/

namespace StagedScript

/-! ### Slots -/

/-- The declarations of a function that may be used: those in scope and those of entered blocks. -/
def FunctionState.live (fn : FunctionState) : List BindingId := fn.scope ++ fn.reserved.map (·.2)

/-- The declarations of a function do not share slots, and their slots lie below its height. -/
structure FunctionState.KeepsApart (bindings : Array Binding) (fn : FunctionState) : Prop where
  below : ∀ id ∈ fn.live, ∀ n, bindings[id]?.bind Binding.slot? = some n → 0 ≤ n ∧ n < fn.top
  apart : ∀ a ∈ fn.live, ∀ b ∈ fn.live, ∀ n, bindings[a]?.bind Binding.slot? = some n →
    bindings[b]?.bind Binding.slot? = some n → a = b

variable {L L₀ L' : Log} {E : Env} {y : Nesting} {cur : Cursor} {s : CompileState} {x x' : Context}
  {l k : Layout} {next : Next} {w : Waiting} {ws : List Waiting} {e : Expr} {v : Value}

theorem Context.Describes.keepsApart {fn : FunctionState} {bindings : Array Binding}
    (h : x.Describes E fn.nesting) (hl : x.floor <:+ l) (htop : fn.top = l.length)
    (hslots : E.slots = bindings.toList.map Binding.slot?) : fn.KeepsApart bindings := by
  have hslot : ∀ (id : BindingId) n, bindings[id]?.bind Binding.slot? = some n →
      E.slots[id]? = some (some n) := by
    intro id n hn
    obtain ⟨b, hb, hn⟩ := Option.bind_eq_some_iff.1 hn
    rw [hslots, List.getElem?_map, Array.getElem?_toList, hb]
    exact congrArg some hn
  have hlive : fn.live ⊆ NameLevel.known x.levels fn.nesting.scope fn.nesting.reserved := by
    rw [NameLevel.known, ← List.append_assoc]
    exact List.subset_append_left _ _
  have hsep := h.separate hl
  refine ⟨fun id hid n hn => ?_, fun a ha b hb n hna hnb =>
    hsep.apart a (hlive ha) b (hlive hb) n (hslot a n hna) (hslot b n hnb)⟩
  rw [htop]
  exact Layout.lt_of_kindAt? ((hsep.sees id (hlive hid)).slot (.refl E) (hslot id n hn)).2

theorem Enclosed.keepsApart {finished : List Func} {bindings : Array Binding}
    {counts : CapturedCounts} {isRoot : Bool} {upvalues : List Int} {captured : List BindingId}
    {outer : List Outer} {fns : List FunctionState}
    (h : Enclosed finished (bindings.toList.map Binding.slot?) counts isRoot upvalues captured outer
      fns) : ∀ fn ∈ fns, fn.KeepsApart bindings := by
  induction fns generalizing isRoot upvalues captured outer with
  | nil => exact List.forall_mem_nil _
  | cons fn rest ih =>
    cases outer with
    | nil => exact h.elim
    | cons o outer =>
      obtain ⟨-, -, E, x, l, hslots, -, htyped, hfits, hdesc, -, -, hrest⟩ := h
      exact List.forall_mem_cons.2 ⟨hdesc.keepsApart hfits.floor htyped.height.1 hslots, ih hrest⟩

theorem Waiting.Awaits.floor (h : w.Awaits x l x' k) (hk : x'.floor <:+ k) : x.floor <:+ l := by
  cases h with
  | method => exact hk.trans ((List.suffix_cons _ _).trans (List.suffix_append _ _))
  | _ => exact hk

theorem Asks.floor (h : Asks L E y w x l) : x.floor <:+ l := by
  obtain ⟨x', k, hawaits, hin⟩ := h.inside
  exact hawaits.floor hin.fits.floor

/-- The slots of all declarations lie in the layout at the start of a round. -/
theorem Poised.layout (h : Poised L next s) :
    ∃ (E : Env) (y : Nesting) (x : Context) (l : Layout) (u : Watch Label),
      At L E y (.live ⟨l, u⟩) s ∧ x.Describes E y ∧ x.floor <:+ l := by
  cases h with
  | compile h ha => exact ⟨_, _, _, _, _, h, ha.describes, ha.fits.floor⟩
  | statement h ha => exact ⟨_, _, _, _, _, h, ha.describes, ha.fits.floor⟩
  | give h hx hl => exact ⟨_, _, _, _, _, h, hx, hl.trans (List.suffix_cons _ _)⟩
  | last h hx hl => exact ⟨_, _, _, _, _, h, hx, hl.trans (List.suffix_cons _ _)⟩
  | answer h hw => exact ⟨_, _, _, _, _, h, hw.describes, hw.floor⟩
  | wait h hw => exact ⟨_, _, _, _, _, h, hw.describes, hw.floor⟩

theorem Poised.keepsApart (h : Poised L next s) :
    ∀ fn ∈ s.functions, fn.KeepsApart s.bindings := by
  obtain ⟨E, y, x, l, u, h, hx, hl⟩ := h.layout
  obtain ⟨fn, rest, hs, rfl, htyped, hrest⟩ := h.functions
  rw [h.bindings.slots] at hrest
  rw [hs]
  exact List.forall_mem_cons.2
    ⟨hx.keepsApart hl htyped.height.1 h.bindings.slots, hrest.keepsApart⟩

/-! ### Records -/

namespace CompileState

def waiting (s : CompileState) : List (List Waiting) := s.functions.map (·.waiting)

def records (s : CompileState) : List Records := s.functions.map (·.records)

/-- All frames and records are those from before an expression was compiled, with declarations that
it may bring into scope. -/
def Restores (e : Expr) (s s' : CompileState) : Prop :=
  s'.waiting = s.waiting ∧ ∃ fn fns added, s.functions = fn :: fns ∧
    (∀ id ∈ added, id ∈ e.own fn.reserved) ∧
    s'.records = { fn.records with scope := added ++ fn.scope } :: fns.map (·.records)

end CompileState

def Outer.waiting (o : Outer) : List Waiting := o.frame :: o.frames

def Log.stack (L : Log) : List (List Waiting) := L.frames :: L.outer.map Outer.waiting

theorem outer_maps {outer : List Outer} {fns : List FunctionState}
    (h : List.Forall₂ Outer.Waits outer fns) :
    fns.map (·.waiting) = outer.map Outer.waiting ∧ fns.map (·.records) = outer.map (·.records) := by
  induction h with
  | nil => exact ⟨rfl, rfl⟩
  | cons ho _ ih => exact ⟨congrArg₂ List.cons ho.frames ih.1, congrArg₂ List.cons ho.records ih.2⟩

theorem Log.Waits.waiting (h : L.Waits ws s) : s.waiting = ws :: L.outer.map Outer.waiting := by
  obtain ⟨fn, rest, hs, rfl, -, hrest⟩ := h
  rw [CompileState.waiting, hs, List.map_cons, (outer_maps hrest).1]

theorem At.stack (h : At L E y cur s) (hframes : y.waiting = L.frames) :
    s.waiting = L.stack ∧ ∃ fn fns, s.functions = fn :: fns ∧ fn.nesting = y ∧
      fns.map (·.records) = L.outer.map (·.records) := by
  obtain ⟨fn, fns, hs, rfl, -, hrest⟩ := h.functions
  obtain ⟨hwaiting, hrecords⟩ := outer_maps hrest.waits
  refine ⟨?_, fn, fns, hs, rfl, hrecords⟩
  rw [CompileState.waiting, hs, List.map_cons, hwaiting]
  exact congrArg (· :: _) hframes

/-- The expression of the round is about to be compiled. -/
def Log.Begins (L : Log) (e : Expr) (s : CompileState) : Prop :=
  s.waiting = L.stack ∧ ∃ p fn fns, L.pins.head? = some p ∧ s.functions = fn :: fns ∧
    fn.records = p.toRecords ∧ (∀ id ∈ p.own, id ∈ e.own fn.reserved) ∧
    fns.map (·.records) = L.outer.map (·.records)

/-- The expression of the round has been compiled, and all records are those from its start, with
declarations that it may bring into scope. -/
def Log.Restored (L : Log) (s : CompileState) : Prop :=
  s.waiting = L.stack ∧ ∃ p added, L.pins.head? = some p ∧ (∀ id ∈ added, id ∈ p.own) ∧
    s.records = { p.toRecords with scope := added ++ p.scope } :: L.outer.map (·.records)

theorem Log.Begins.restores {s' : CompileState} (h : L.Begins e s) (h' : L.Restored s') :
    s.Restores e s' := by
  obtain ⟨hstack, p, fn, fns, hp, hs, hrecords, hown, houters⟩ := h
  obtain ⟨hstack', _, added, hp', hadded, hrecords'⟩ := h'
  cases hp'.symm.trans hp
  refine ⟨hstack'.trans hstack.symm, fn, fns, added, hs, fun id hid => hown id (hadded id hid), ?_⟩
  rw [hrecords', ← hrecords, houters]
  rfl

theorem At.begins (h : At L E y cur s) (ha : Around L E y x k)
    (hown : ∀ id ∈ L.own, id ∈ e.own y.reserved) : L.Begins e s := by
  obtain ⟨p, hp, hrecords⟩ := ha.pin
  obtain ⟨hstack, fn, fns, hs, rfl, houters⟩ := h.stack ha.frames
  rw [Draft.own, hp] at hown
  exact ⟨hstack, p, fn, fns, hp, hs, (ha.records rfl).trans hrecords.symm, hown, houters⟩

theorem Poised.begins (h : Poised L (.compile e) s) : L.Begins e s := by
  cases h with
  | compile h ha hown => exact h.begins ha (by simp [hown])
  | statement h ha hown => exact h.begins ha (by simp [hown])

/-- The value of the expression of the round is given. -/
theorem Ready.restored (h : Ready L next s) (hnext : next = .give v) (hpins : L.pins ≠ []) :
    L.Restored s := by
  induction h with
  | @give L E y x k s v ids h hin hx hids =>
    obtain ⟨p, hp, hrecords⟩ := hin.pin
    obtain ⟨hstack, fn, fns, hs, rfl, houters⟩ := h.stack hin.frames
    rw [Draft.own, hp] at hids
    refine ⟨hstack, p, ids, hp, hids, ?_⟩
    rw [CompileState.records, hs, List.map_cons, houters, hrecords]
    exact congrArg (· :: _) hx.records
  | finish _ _ _ _ hlast => exact absurd hlast.2.2 hpins
  | later _ _ ih => exact ih hnext hpins
  | _ => cases hnext

/-! ### Rounds inside of an expression -/

/-- Rounds of a function are for an expression or for one inside of it. -/
def Draft.Within (d₀ d : Draft) : Prop :=
  ∃ ps fs, ps.length = fs.length ∧ d.pins = ps ++ d₀.pins ∧ d.frames = fs ++ d₀.frames

/-- A round is for an expression or for one inside of it. -/
def Log.Within (L₀ L : Log) : Prop :=
  (L₀.toDraft.Within L.toDraft ∧ L.outer = L₀.outer) ∨
    ∃ inner o, L.outer = inner ++ o :: L₀.outer ∧ L₀.toDraft.Within o.toDraft

/-- Rounds stay inside of an expression until its value is given. -/
theorem Log.Moves.within (h : L.Moves next ws L') (hpins : L₀.pins ≠ []) (hwithin : L₀.Within L) :
    L₀.Within L' ∨
      (∃ v, next = .give v) ∧ L.frames = L₀.frames ∧ L.pins = L₀.pins ∧ L.outer = L₀.outer := by
  obtain ⟨⟨ps, fs, hlength, hps, hfs⟩, houter⟩ | ⟨inner, o, houter, hd⟩ := hwithin
  · cases h with
    | @opened w e pin =>
      exact .inl (.inl ⟨⟨pin :: ps, w :: fs, by simp [hlength], congrArg (pin :: ·) hps,
        congrArg (w :: ·) hfs⟩, houter⟩)
    | replaced => exact .inl (.inl ⟨⟨ps, fs, hlength, hps, hfs⟩, houter⟩)
    | @closed c around v haround =>
      cases ps with
      | nil =>
        -- the innermost frame is the one that waits for the expression itself
        obtain rfl := List.length_eq_zero_iff.1 hlength.symm
        exact .inr ⟨⟨v, rfl⟩, hfs, hps, houter⟩
      | cons p ps =>
        cases fs with
        | nil => cases hlength
        | cons f fs =>
          refine .inl (.inl ⟨⟨ps, fs, by simpa using hlength, congrArg List.tail hps, ?_⟩, houter⟩)
          rw [Draft.frames, haround] at hfs
          exact (List.cons.inj hfs).2
    | @ended v haround =>
      have hlast : [L.last] = fs ++ L₀.frames := by
        rw [← hfs, Draft.frames, haround]
        rfl
      have hone : fs.length + L₀.frames.length = 1 := by simpa using (congrArg List.length hlast).symm
      have hpos := List.length_pos_iff.2 (frames_ne_nil L₀.toDraft)
      obtain rfl := List.length_eq_zero_iff.1 (show fs.length = 0 by omega)
      obtain rfl := List.length_eq_zero_iff.1 hlength
      exact .inr ⟨⟨v, rfl⟩, hfs, hps, houter⟩
    | asked => exact .inl (.inl ⟨⟨ps, fs, hlength, hps, hfs⟩, houter⟩)
    | begun => exact .inl (.inr ⟨[], _, congrArg (_ :: ·) houter, ps, fs, hlength, hps, hfs⟩)
    | finished _ hlast =>
      -- a function ends after all of its expressions
      rw [hlast.2.2] at hps
      exact absurd (List.append_eq_nil_iff.1 hps.symm).2 hpins
  · cases h with
    | begun => exact .inl (.inr ⟨_ :: inner, o, congrArg (_ :: ·) houter, hd⟩)
    | finished houter' =>
      rw [houter'] at houter
      cases inner with
      | nil =>
        obtain ⟨rfl, rfl⟩ := List.cons.inj houter
        exact .inl (.inl ⟨hd, rfl⟩)
      | cons o' inner => exact .inl (.inr ⟨inner, o, (List.cons.inj houter).2, hd⟩)
    | _ => exact .inl (.inr ⟨inner, o, houter, hd⟩)

/-- While rounds are inside of an expression, its value is not given. -/
theorem Log.Within.not_gives (h : L₀.Within L) (hpins : L₀.pins ≠ []) (hstarts : L.Starts (.give v) s) :
    s.waiting.map List.length ≠ L₀.stack.map List.length := by
  intro hdepths
  have hwaits : ∃ ws, L.Waits ws s ∧ ((∃ w, ws = w :: L.frames) ∨ L.pins = []) := by
    have hcounts := hstarts.fresh.2
    cases hstarts.poised with
    | give h _ _ hy _ hin =>
      exact ⟨_, h.waits hcounts hy, .inl ⟨_, congrArg (_ :: ·) hin.frames⟩⟩
    | last h _ _ hy hlast => exact ⟨_, h.waits hcounts hy, .inr hlast.2.2⟩
    | answer h hw => exact ⟨_, h.waits hcounts hw.waiting, .inl ⟨_, rfl⟩⟩
  obtain ⟨ws, hwaits, hws⟩ := hwaits
  rw [hwaits.waiting] at hdepths
  obtain ⟨hframes, houters⟩ := List.cons.inj hdepths
  obtain ⟨⟨ps, fs, -, hps, hfs⟩, -⟩ | ⟨inner, o, ho, -⟩ := h
  · obtain ⟨w, rfl⟩ | hnil := hws
    · rw [hfs, List.length_cons, List.length_append] at hframes
      omega
    · rw [hnil] at hps
      exact hpins (List.append_eq_nil_iff.1 hps.symm).2
  · rw [ho] at houters
    exact absurd (congrArg List.length houters) (by simp; omega)

/-! ### Compilations -/

def Phase.isOver : Phase → Bool
  | .compile _ | .give _ | .wait _ => false
  | _ => true

def Phase.isGive : Phase → Bool
  | .give _ => true
  | _ => false

def Phase.isCompile : Phase → Bool
  | .compile _ => true
  | _ => false

theorem Phase.isGive_iff {p : Phase} : p.isGive = true ↔ ∃ v, p = .give v := by
  cases p <;> simp [isGive]

theorem Phase.isOver_of_isFailure {p : Phase} (h : p.isFailure = true) : p.isOver = true := by
  cases p with
  | fail | stuck => rfl
  | _ => cases h

namespace Task

variable {settings : Settings} {ev : Evaluator} {t : Task}

/-- A value is given when as many frames wait, in each function, as at an earlier time. -/
def Returns (t₀ t : Task) : Prop :=
  t.phase.isGive = true ∧ t.state.waiting.map List.length = t₀.state.waiting.map List.length

instance (t₀ t : Task) : Decidable (Returns t₀ t) := inferInstanceAs (Decidable (_ ∧ _))

/-- An expression is compiled from one round to another. -/
structure Compiles (tasks : Nat → Task) (e : Expr) (n m : Nat) : Prop where
  starts : (tasks n).phase = .compile e
  later : n < m
  returns : (tasks n).Returns (tasks m)
  first : ∀ i, n < i → i < m → ¬(tasks n).Returns (tasks i)

theorem isOver_advance (t : Task) (h : t.phase.isOver = true) :
    (t.advance settings).phase.isOver = true := by
  obtain ⟨phase, active, state, cancellation, reports⟩ := t
  cases phase with
  | compile | give | wait => cases h
  | _ => rfl

theorem Tracks.starts (h : t.Tracks L) (hphase : t.phase = next.phase) :
    L.Starts next t.state := by
  obtain ⟨-, next', hphase', hstarts⟩ := h
  obtain rfl : next' = next := by
    cases next' <;> cases next <;> cases hphase'.symm.trans hphase <;> rfl
  exact hstarts

theorem Sound.tracks {j : Journal} (h : t.Sound j) (hgoes : t.phase.isOver = false) :
    ∃ L, t.Tracks L := by
  cases h.stands with
  | goesOn _ h => exact ⟨_, h⟩
  | fails hphase => simp [Phase.isOver_of_isFailure hphase] at hgoes
  | makes hphase => simp [hphase, Phase.isOver] at hgoes
  | reported hphase => simp [hphase, Phase.isOver] at hgoes

/-- A compilation is over, or goes on inside of an expression. -/
def Goes (L₀ : Log) (t : Task) : Prop :=
  t.phase.isOver = true ∨ ∃ L, t.Tracks L ∧ L₀.Within L

/-- How a compilation stands after the start of an expression: it goes on inside of the expression, or
gives its value with all records restored. -/
def Stays (L₀ : Log) (t : Task) : Prop :=
  Goes L₀ t ∨ t.phase.isGive = true ∧ L₀.Restored t.state

/-- Rounds go on inside of an expression until its value is given. -/
theorem Goes.advance (hglobals : settings.globals.Sound) (h : Goes L₀ t) (hpins : L₀.pins ≠ []) :
    Stays L₀ (t.advance settings) := by
  obtain hover | ⟨L, h, hwithin⟩ := h
  · exact .inl (.inl (isOver_advance t hover))
  have hproceeds := h.advance hglobals
  generalize t.advance settings = t' at hproceeds ⊢
  cases hproceeds with
  | continues hready hnext hphase h =>
    obtain hwithin | ⟨⟨v, rfl⟩, hframes, hps, houter⟩ := hnext.moves.within hpins hwithin
    · exact .inl (.inr ⟨_, h, hwithin⟩)
    · refine .inr ⟨by rw [hphase]; rfl, ?_⟩
      change L.pins = _ at hps
      have hrestored := hready.restored rfl (hps ▸ hpins)
      rwa [Log.Restored, Log.stack, hps, show L.frames = _ from hframes,
        show L.outer = _ from houter] at hrestored
  | finishes hphase => exact .inl (.inl (by rw [hphase]; rfl))
  | fails hphase => exact .inl (.inl (Phase.isOver_of_isFailure hphase))
  | waits hphase => exact .inl (.inr ⟨L, h, hwithin⟩)

theorem Tracks.advance_cases (hglobals : settings.globals.Sound) (h : t.Tracks L) :
    (t.advance settings).phase.isOver = true ∨ ∃ L, (t.advance settings).Tracks L := by
  have hproceeds := h.advance hglobals
  generalize t.advance settings = t' at hproceeds ⊢
  cases hproceeds with
  | continues _ _ _ h => exact .inr ⟨_, h⟩
  | finishes hphase => exact .inl (by rw [hphase]; rfl)
  | fails hphase => exact .inl (Phase.isOver_of_isFailure hphase)
  | waits => exact .inr ⟨L, h⟩

theorem Stays.evaluate (hev : ev.Sound) (h : Stays L₀ t) : Stays L₀ (t.evaluate ev) := by
  obtain heq | ⟨call, hwait, -⟩ := t.evaluate_cases ev
  · rwa [heq]
  obtain (hover | ⟨L, h, hwithin⟩) | ⟨hgives, -⟩ := h
  · simp [hwait, Phase.isOver] at hover
  · obtain ⟨-, ⟨h, -⟩ | ⟨hfails, -⟩⟩ := h.evaluate hev
    · exact .inl (.inr ⟨L, h, hwithin⟩)
    · exact .inl (.inl (Phase.isOver_of_isFailure hfails))
  · simp [hwait, Phase.isGive] at hgives

section

variable {tasks : Nat → Task} (hnext : ∀ {L₀ : Log}, L₀.pins ≠ [] → ∀ n, Goes L₀ (tasks n) →
  Stays L₀ (tasks (n + 1)))

include hnext

/-- Between the start of an expression and the time at which its value is given. -/
theorem Tracks.stays {n m : Nat} (h : (tasks n).Tracks L) (hstack : (tasks n).state.waiting = L.stack)
    (hpins : L.pins ≠ []) (hfirst : ∀ i, n ≤ i → i < m → ¬(tasks n).Returns (tasks i)) (hle : n ≤ m) :
    Stays L (tasks m) := by
  induction m, hle using Nat.le_induction with
  | base => exact .inl (.inr ⟨L, h, .inl ⟨⟨[], [], rfl, rfl, rfl⟩, rfl⟩⟩)
  | succ m hle ih =>
    obtain hgoes | ⟨hgives, hrestored⟩ := ih fun i hi him => hfirst i hi (by omega)
    · exact hnext hpins m hgoes
    · exact absurd ⟨hgives, congrArg _ (hrestored.1.trans hstack.symm)⟩ (hfirst m hle (by omega))

theorem Compiles.restores {n m : Nat} (hcompiles : Compiles tasks e n m) (h : (tasks n).Tracks L) :
    (tasks n).state.Restores e (tasks m).state := by
  obtain ⟨hcompile, hlater, hreturns, hfirst⟩ := hcompiles
  have hbefore : ∀ i, n ≤ i → i < m → ¬(tasks n).Returns (tasks i) := by
    intro i hi him
    obtain rfl | hlt := Nat.eq_or_lt_of_le hi
    · simp [Returns, hcompile, Phase.isGive]
    · exact hfirst i hlt him
  have hstarts : L.Starts (.compile e) (tasks n).state := h.starts hcompile
  have hbegins := hstarts.poised.begins
  obtain ⟨hstack, p, -, -, hp, -⟩ := id hbegins
  have hpins : L.pins ≠ [] := by
    intro hnil
    cases hnil ▸ hp
  obtain ⟨hgives, hdepths⟩ := hreturns
  obtain ⟨v, hgive⟩ := Phase.isGive_iff.1 hgives
  obtain (hover | ⟨L', htracks, hwithin⟩) | ⟨-, hrestored⟩ :=
    h.stays hnext hstack hpins hbefore (Nat.le_of_lt hlater)
  · simp [hgive, Phase.isOver] at hover
  · exact absurd (hstack ▸ hdepths) (hwithin.not_gives hpins (htracks.starts hgive))
  · exact hbegins.restores hrestored

end

/-- At all times the declarations of the functions under construction have different slots below the
height of the stack.  When an expression has been compiled, the records of all these functions are
those from before, apart from the declarations that a statement binds. -/
structure Ordered (tasks : Nat → Task) : Prop where
  apart : ∀ n, (tasks n).phase.isOver = false →
    ∀ fn ∈ (tasks n).state.functions, fn.KeepsApart (tasks n).state.bindings
  restores : ∀ e n m, Compiles tasks e n m → (tasks n).state.Restores e (tasks m).state

theorem Ordered.of_tracks {tasks : Nat → Task}
    (htracks : ∀ n, (tasks n).phase.isOver = false → ∃ L, (tasks n).Tracks L)
    (hnext : ∀ {L₀ : Log}, L₀.pins ≠ [] → ∀ n, Goes L₀ (tasks n) → Stays L₀ (tasks (n + 1))) :
    Ordered tasks := by
  refine ⟨fun n hn => ?_, fun e n m hcompiles => ?_⟩
  · obtain ⟨L, -, next, -, h⟩ := htracks n hn
    exact h.poised.keepsApart
  · obtain ⟨L, h⟩ := htracks n (by rw [hcompiles.starts]; rfl)
    exact hcompiles.restores hnext h

/-! ### Answers at any moment -/

theorem Tracks.withHeap (h : t.Tracks L) {heap : Heap} (cancellation : Cancellation)
    (hheap : t.state.heap.Sound → heap.Sound)
    (hcounts : CapturedCounts.Extends t.state.heap.capturedCount? heap.capturedCount?) :
    Tracks { t with state := { t.state with heap }, cancellation } L := by
  obtain ⟨hreports, next, hphase, hvalid, hpoised, hfresh⟩ := h
  obtain ⟨E, y, x, l, u, hat, -⟩ := hpoised.layout
  exact ⟨hreports, next, hphase, hvalid,
    hpoised.withHeap (hheap hat.heap_sound) hcounts, hfresh⟩

theorem Tracks.deliver (h : t.Tracks L) {call : EvalCall} (hwait : t.phase = .wait call) {a : Answer}
    (ha : ∀ v, (t.deliver a).phase = .give v → v.Sound t.state.heap.capturedCount?) :
    (t.deliver a).phase.isOver = true ∨ (t.deliver a).Tracks L := by
  obtain ⟨phase, active, state, cancellation, reports⟩ := t
  cases hwait
  cases a with
  | value v =>
    obtain ⟨hreports, next, hphase, hvalid, hpoised, hfresh⟩ := h
    obtain rfl : next = .wait call := by cases next <;> cases hphase; rfl
    exact .inr ⟨hreports, .give v, rfl, hvalid, hpoised.answered (ha v rfl), hfresh⟩
  | _ => exact .inl rfl

namespace Shared

/-- Others keep the heap sound, and answer with sound values. -/
structure KeepsSound (x y : Shared) : Prop where
  heap : x.loops = y.loops → x.task.state.heap.Sound → y.task.state.heap.Sound
  counts : x.loops = y.loops → CapturedCounts.Extends x.task.state.heap.capturedCount?
    y.task.state.heap.capturedCount?
  answer : ∀ call v, x.isTaken = false → x.task.phase = .wait call → y.task.phase = .give v →
    v.Sound x.task.state.heap.capturedCount?

variable {x y : Shared}

/-- A step is a round, or leaves the log as it was unless the compilation is over. -/
theorem tracks_step (horderly : x.Orderly) (htakes : x.Takes) (hstep : Step settings x y)
    (hconduct : KeepsSound x y) : y.task = x.task.advance settings ∨
      ((x.task.phase.isOver = true → y.task.phase.isOver = true) ∧
        ∀ L, x.task.Tracks L → y.task.phase.isOver = true ∨ y.task.Tracks L) := by
  obtain ⟨-, ⟨heap, cancellation, htask, hheap⟩ | htask | ⟨call, a, htaken, hwait, htask⟩⟩ :=
    htakes.step horderly hstep
  · obtain ⟨hsound, hcounts, -⟩ := hconduct
    rw [htask] at hsound hcounts ⊢
    refine .inr ⟨id, fun L h => .inr ?_⟩
    obtain hloops | rfl := hheap
    · exact h.withHeap cancellation (hsound hloops) (hcounts hloops)
    · exact h.withHeap cancellation id fun _ _ h => h
  · exact .inl htask
  · have hanswer := hconduct.answer
    rw [htask] at hanswer ⊢
    refine .inr ⟨fun hover => ?_, fun L h => h.deliver hwait fun v => hanswer call v htaken hwait⟩
    rw [hwait] at hover
    cases hover

end Shared

section

variable {heap : Heap} (hheap : heap.Sound) {root : Expr} (hroot : root.Sound heap.capturedCount?)
  {cancellation : Cancellation} (hglobals : settings.globals.Sound)

include hheap hroot hglobals

theorem run_ordered (hev : ev.Sound) :
    Ordered (run settings ev · (start settings heap cancellation root)) := by
  refine .of_tracks (fun n => ((start_sound settings hheap cancellation hroot).run hglobals hev
    n).tracks) fun hpins n hgoes => ?_
  rw [run_add]
  generalize run settings ev n (start settings heap cancellation root) = t at *
  cases hactive : t.active with
  | false =>
    rw [run_eq_self ev 1 hactive]
    exact .inl hgoes
  | true =>
    rw [run_succ ev 0 hactive]
    exact (hgoes.advance hglobals hpins).evaluate hev

theorem history_ordered {states : Nat → Shared} (hstates : Shared.History settings Shared.KeepsSound
    (.start settings heap cancellation root) states) : Ordered fun n => (states n).task := by
  have horderly : ∀ n, (states n).Orderly ∧ (states n).Takes :=
    hstates.all (P := fun x => x.Orderly ∧ x.Takes)
      ⟨Shared.start_orderly _ _ _ _, Shared.start_takes _ _ _ _⟩
      fun h hstep _ => ⟨h.1.step hstep, (h.2.step h.1 hstep).1⟩
  have hsteps (n : Nat) : (states (n + 1)).task = (states n).task.advance settings ∨
      ((states n).task.phase.isOver = true → (states (n + 1)).task.phase.isOver = true) ∧
        ∀ L, (states n).task.Tracks L →
          (states (n + 1)).task.phase.isOver = true ∨ (states (n + 1)).task.Tracks L := by
    obtain heq | ⟨hstep, hconduct⟩ := hstates.succ n
    · rw [heq]
      exact .inr ⟨id, fun _ => .inr⟩
    · exact Shared.tracks_step (horderly n).1 (horderly n).2 hstep hconduct
  have htracks (n : Nat) : (states n).task.phase.isOver = true ∨ ∃ L, (states n).task.Tracks L := by
    induction n with
    | zero =>
      rw [hstates.zero]
      exact .inr ⟨_, rfl, .compile root, rfl, start_starts settings hheap cancellation hroot⟩
    | succ n ih =>
      obtain hadvance | ⟨hover, hsame⟩ := hsteps n
      · rw [hadvance]
        exact ih.elim (fun h => .inl (isOver_advance _ h)) fun ⟨L, h⟩ => h.advance_cases hglobals
      · exact ih.elim (fun h => .inl (hover h)) fun ⟨L, h⟩ => (hsame L h).imp_right fun h => ⟨L, h⟩
  refine .of_tracks (fun n hn => (htracks n).resolve_left (by simp [hn])) fun hpins n hgoes => ?_
  obtain hadvance | ⟨hover, hsame⟩ := hsteps n
  · rw [hadvance]
    exact hgoes.advance hglobals hpins
  · obtain h | ⟨L, h, hwithin⟩ := hgoes
    · exact .inl (.inl (hover h))
    · exact .inl ((hsame L h).imp_right fun h => ⟨L, h, hwithin⟩)

end

/-- Whatever sound expression is compiled with sound globals, the slots of declarations are apart and
records are restored.  The compilation may be answered by a sound evaluator at once, or by others at
any moment. -/
theorem slots_apart_and_records_restored (hglobals : settings.globals.Sound) {heap : Heap}
    (hheap : heap.Sound) (cancellation : Cancellation) {root : Expr}
    (hroot : root.Sound heap.capturedCount?) :
    (∀ ev : Evaluator, ev.Sound → Ordered (run settings ev · (start settings heap cancellation root))) ∧
    ∀ states, Shared.History settings Shared.KeepsSound (.start settings heap cancellation root) states →
      Ordered fun n => (states n).task :=
  ⟨fun _ => run_ordered hheap hroot hglobals, fun _ => history_ordered hheap hroot hglobals⟩

theorem exists_ok_of_any {ε α : Type} {r : Except ε α} {P : α → Prop} [DecidablePred P]
    (h : r.toOption.any (fun a => decide (P a)) = true) : ∃ a, r = .ok a ∧ P a := by
  cases r with
  | error => cases h
  | ok a => exact ⟨a, rfl, of_decide_eq_true h⟩

/-- An expression is compiled between two times, which can be seen. -/
def CompilesAt (tasks : Nat → Task) (n m : Nat) : Prop :=
  (tasks n).phase.isCompile = true ∧ n < m ∧ (tasks n).Returns (tasks m) ∧
    ∀ i ∈ List.range' (n + 1) (m - n - 1), ¬(tasks n).Returns (tasks i)

instance (tasks : Nat → Task) (n m : Nat) : Decidable (CompilesAt tasks n m) :=
  inferInstanceAs (Decidable (_ ∧ _))

theorem CompilesAt.exists_compiles {tasks : Nat → Task} {n m : Nat} (h : CompilesAt tasks n m) :
    ∃ e, Compiles tasks e n m := by
  obtain ⟨hstarts, hlater, hreturns, hfirst⟩ := h
  generalize hphase : (tasks n).phase = p at hstarts
  cases p with
  | compile e =>
    exact ⟨e, hphase, hlater, hreturns, fun i hi hm => hfirst i (List.mem_range'_1.2 (by omega))⟩
  | _ => cases hstarts

/-- The constant is answered at once, or later. -/
theorem slots_apart_and_records_restored_of_handled_closure :
    ∃ root heap, Compiler.parse ⟨⟨.few, .standard⟩, .prelude, 4, .machine⟩ {} "t"
        "let x := :(1); let f := fun(y) do x + y on e do retry end end; f(2)" = .ok (root, heap) ∧
      let settings : Settings := ⟨.prelude, 4, ⟨"t", 1, 1⟩⟩
      let tasks := (run settings .machine · (start settings heap .never root))
      ((tasks 21).phase.isOver = false ∧
        ∀ fn ∈ (tasks 21).state.functions, fn.KeepsApart (tasks 21).state.bindings) ∧
      (∃ e, Compiles tasks e 9 27 ∧ (tasks 9).state.Restores e (tasks 27).state) ∧
      ∃ states, Shared.History settings Shared.KeepsSound (.start settings heap .never root) states ∧
        (states 20).loops.isEmpty = true ∧
        ∃ e, Compiles (fun n => (states n).task) e 2 25 ∧
          (states 2).task.state.Restores e (states 25).task.state := by
  let settings : Settings := ⟨.prelude, 4, ⟨"t", 1, 1⟩⟩
  let answer? (n : Nat) : Option Answer := if n = 20 then some (.value (.int 1)) else none
  have htrace : ∃ tree, Compiler.parse ⟨⟨.few, .standard⟩, .prelude, 4, .machine⟩ {} "t"
      "let x := :(1); let f := fun(y) do x + y on e do retry end end; f(2)" = .ok tree ∧
      ((run settings .machine 21 (start settings tree.2 .never tree.1)).phase.isOver = false ∧
        CompilesAt (run settings .machine · (start settings tree.2 .never tree.1)) 9 27) ∧
      (Shared.play settings answer? (.start settings tree.2 .never tree.1) 20).loops.isEmpty = true ∧
      CompilesAt (fun n => (Shared.play settings answer? (.start settings tree.2 .never tree.1) n).task)
        2 25 := by
    refine exists_ok_of_any ?_
    decide +kernel
  obtain ⟨⟨root, heap⟩, hparse, ⟨hgoes, hcompiles⟩, hrests, hcompiles'⟩ := htrace
  obtain ⟨hheap, hroot⟩ := Compiler.parse_sound Heap.empty_sound hparse
  obtain ⟨hrun, hstates⟩ := @slots_apart_and_records_restored settings
    Globals.prelude_sound heap hheap .never root hroot
  have hrun := hrun _ Evaluator.machine_sound
  have hhistory : Shared.History settings Shared.KeepsSound (.start settings heap .never root)
      (Shared.play settings answer? (.start settings heap .never root)) := by
    refine Shared.play_history _ (fun n => ?_) fun x y hstate hanswer => ⟨?_, ?_, ?_⟩
    · by_cases hn : n = 20 <;> simp [answer?, hn]
    · exact fun hloops h => hstate hloops ▸ h
    · exact fun hloops => hstate hloops ▸ fun _ _ h => h
    · intro call v htaken hwait hgive
      obtain ⟨n, hn⟩ := hanswer call v htaken hwait hgive
      by_cases h : n = 20 <;> simp [answer?, h] at hn
      rw [← hn]
      trivial
  obtain ⟨e, he⟩ := hcompiles.exists_compiles
  obtain ⟨e', he'⟩ := hcompiles'.exists_compiles
  exact ⟨root, heap, hparse, ⟨hgoes, hrun.apart 21 hgoes⟩, ⟨e, he, hrun.restores e 9 27 he⟩, _,
    hhistory, hrests, e', he', (hstates _ hhistory).restores e' 2 25 he'⟩

end Task

end StagedScript
