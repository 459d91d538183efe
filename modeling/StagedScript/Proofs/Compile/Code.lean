import StagedScript.Proofs.Compile.Log

/-!
# Functions under construction

A function that is being compiled is *typed* when its code is typed over the points of its labels,
its instructions are sound, and the compiler counts with the right height at the place of the next
instruction.  Code after a jump cannot be reached, and the cursor is then dead until the compiler
decides on a layout.
-/

namespace StagedScript

/-- What is known while a function is compiled. -/
structure Env where
  isRoot : Bool
  labels : List (Point Label)
  captures : Nat
  slots : List (Option Int)
  counts : CapturedCounts

structure Env.Extends (E E' : Env) : Prop where
  isRoot : E'.isRoot = E.isRoot
  labels : ∀ (l : Label) q, E.labels[l]? = some q → E'.labels[l]? = some q
  captures : E.captures ≤ E'.captures
  slots : ∀ (id : BindingId) n, E.slots[id]? = some n → E'.slots[id]? = some n
  counts : E.counts.Extends E'.counts

/-- What is known about the place of the next instruction. -/
inductive Cursor where
  | live (p : Point Label)
  /-- Control does not reach it: the height before the last instruction, and the one that counts
  now. -/
  | dead (reached : Nat) (top : Int)

/-- The point of the next instruction if control reaches it. -/
def Cursor.point? : Cursor → Option (Point Label)
  | .live p => some p
  | .dead .. => none

/-- Where the compiler is behind an instruction, by what control falls through with. -/
def Cursor.behind (p : Point Label) (w : Watch Label) (i : Inst) : Option Layout → Cursor
  | some l => .live ⟨l, w⟩
  | none => .dead p.layout.length (p.layout.length + (i.effect.2 - i.effect.1))

namespace Env

variable {E E' E'' : Env}

theorem Extends.refl (E : Env) : E.Extends E :=
  ⟨rfl, fun _ _ h => h, le_rfl, fun _ _ h => h, fun _ _ h => h⟩

theorem Extends.trans (h : E.Extends E') (h' : E'.Extends E'') : E.Extends E'' :=
  ⟨h'.isRoot.trans h.isRoot, fun l q hl => h'.labels l q (h.labels l q hl),
    h.captures.trans h'.captures, fun id n hn => h'.slots id n (h.slots id n hn),
    fun env n hn => h'.counts env n (h.counts env n hn)⟩

def withLabel (E : Env) (q : Point Label) : Env := { E with labels := E.labels ++ [q] }

theorem extends_withLabel (E : Env) (q : Point Label) : E.Extends (E.withLabel q) :=
  { Extends.refl E with
    labels := fun l r hr => by
      rw [withLabel, List.getElem?_append_left (List.getElem?_eq_some_iff.1 hr).1]
      exact hr }

theorem labels_withLabel (E : Env) (q : Point Label) :
    (E.withLabel q).labels[E.labels.length]? = some q := by
  simp [withLabel]

def withSlot (E : Env) (n : Option Int) : Env := { E with slots := E.slots ++ [n] }

theorem extends_withSlot (E : Env) (n : Option Int) : E.Extends (E.withSlot n) :=
  { Extends.refl E with
    slots := fun id m hm => by
      rw [withSlot, List.getElem?_append_left (List.getElem?_eq_some_iff.1 hm).1]
      exact hm }

theorem slots_withSlot (E : Env) (n : Option Int) :
    (E.withSlot n).slots[E.slots.length]? = some n := by
  simp [withSlot]

end Env

namespace FunctionState

/-- The compiler counts with the height at the next place. -/
def CountsAt (fn : FunctionState) : Cursor → Prop
  | .live p => fn.top = p.layout.length ∧ fn.top ≤ fn.size + fn.builder.insts.size
  | .dead reached top =>
    fn.top = top ∧ (reached : Int) < fn.size + fn.builder.insts.size ∧ fn.isTooLarge = false

/-- The code of a function under construction is typed up to the next place, and agrees with the
log. -/
structure Typed (L : Log) (E : Env) (fn : FunctionState) (cur : Cursor) : Prop where
  code : ∃ pts, fn.builder.Typing E.labels E.captures fn.size pts cur.point? ∧
    L.Holds fn.builder pts ∧ ∃ q, (pts ++ cur.point?.toList)[0]? = some q ∧
      Point.Enters ⟨Layout.values fn.params.length, .off⟩ q
  captures : fn.upvalues.length = E.captures
  sound : ∀ i ∈ fn.builder.insts, L.Allows E.counts i
  params : (fn.params.length : Int) ≤ fn.size
  root : E.isRoot = true → fn.params = []
  height : fn.CountsAt cur

variable {L L' : Log} {E E' : Env} {fn fn' : FunctionState} {cur : Cursor} {p q : Point Label}

theorem CountsAt.congr (h : fn.CountsAt cur) (hbuilder : fn'.builder = fn.builder)
    (htop : fn'.top = fn.top) (hsize : fn'.size = fn.size) : fn'.CountsAt cur := by
  cases cur <;> simpa [CountsAt, isTooLarge, hbuilder, htop, hsize] using h

section

variable (h : fn.Typed L E cur)

include h

/-- Only the code, the captured values, the parameters and the heights matter. -/
theorem Typed.congr (hbuilder : fn'.builder = fn.builder)
    (hupvalues : fn'.upvalues = fn.upvalues) (hparams : fn'.params = fn.params)
    (htop : fn'.top = fn.top) (hsize : fn'.size = fn.size) : fn'.Typed L E cur where
  code := by rw [hbuilder, hsize, hparams]; exact h.code
  captures := by rw [hupvalues]; exact h.captures
  sound := by rw [hbuilder]; exact h.sound
  params := by rw [hparams, hsize]; exact h.params
  root := by rw [hparams]; exact h.root
  height := h.height.congr hbuilder htop hsize

/-- What is captured, declared or computed later does not matter for the code so far. -/
theorem Typed.mono (hE : E.Extends E') (hlabels : E'.labels = E.labels)
    (hcaptures : E'.captures = E.captures) : fn.Typed L E' cur where
  code := by rw [hlabels, hcaptures]; exact h.code
  captures := by rw [hcaptures]; exact h.captures
  sound i hi :=
    { value := (h.sound i hi).value.mono hE.counts
      func := fun f hf =>
        ⟨((h.sound i hi).func f hf).1.mono hE.counts, ((h.sound i hi).func f hf).2⟩
      constant := (h.sound i hi).constant }
  params := h.params
  root hroot := h.root (hE.isRoot ▸ hroot)
  height := h.height

theorem Typed.capture (hbuilder : fn'.builder = fn.builder)
    (hupvalues : fn'.upvalues.length = fn.upvalues.length + 1) (hparams : fn'.params = fn.params)
    (htop : fn'.top = fn.top) (hsize : fn'.size = fn.size) :
    fn'.Typed L { E with captures := E.captures + 1 } cur where
  code := by
    obtain ⟨pts, ht, hlog⟩ := h.code
    rw [hbuilder, hsize, hparams]
    exact ⟨pts, ht.mono_captures (Nat.le_succ _), hlog⟩
  captures := by rw [hupvalues, h.captures]
  sound := by rw [hbuilder]; exact h.sound
  params := by rw [hparams, hsize]; exact h.params
  root := by rw [hparams]; exact h.root
  height := h.height.congr hbuilder htop hsize

theorem Typed.newLabel (q : Point Label) :
    Typed L (E.withLabel q) { fn with builder := fn.builder.newLabel.2 } cur where
  code := by
    obtain ⟨pts, ht, hlog, hq⟩ := h.code
    refine ⟨pts, ht.newLabel q, hlog.congr rfl rfl fun l a ha => ?_, hq⟩
    rw [Builder.newLabel, Array.getElem?_push_lt (Array.getElem?_eq_some_iff.1 ha).1]
    simpa [Array.getElem?_eq_getElem (Array.getElem?_eq_some_iff.1 ha).1] using ha
  captures := h.captures
  sound := h.sound
  params := h.params
  root := h.root
  height := h.height

theorem Typed.bound :
    ∀ e ∈ L.bound, fn.builder.aims[e.1]? = some (some (.place e.2)) := by
  obtain ⟨pts, -, hlog, -⟩ := h.code
  exact hlog.bound

theorem Typed.aims_size : fn.builder.aims.size = E.labels.length := by
  obtain ⟨pts, ht, -⟩ := h.code
  exact ht.aims

end

theorem Typed.revive {reached : Nat} {top : Int} (h : fn.Typed L E (.dead reached top))
    (hq : (q.layout.length : Int) = top) (hreached : q.layout.length ≤ reached + 1) :
    fn.Typed L E (.live q) where
  code := by
    obtain ⟨pts, ht, hlog, r, hr, henter⟩ := h.code
    have hnone : ∀ p ∈ (none : Option (Point Label)), p.Enters q := nofun
    obtain ⟨r', hr', henter'⟩ := Builder.Typing.exists_enters hnone hr
    exact ⟨pts, ht.weaken hnone, hlog, r', hr', henter.trans henter'⟩
  captures := h.captures
  sound := h.sound
  params := h.params
  root := h.root
  height := by
    obtain ⟨htop, hlt, -⟩ := h.height
    exact ⟨htop.trans hq.symm, by omega⟩

theorem Typed.setTop {reached : Nat} {top : Int} (h : fn.Typed L E (.dead reached top)) (n : Int) :
    Typed L E { fn with top := n } (.dead reached n) where
  code := h.code
  captures := h.captures
  sound := h.sound
  params := h.params
  root := h.root
  height := ⟨rfl, h.height.2⟩

/-- A label is fixed where control reaches a point that fits, or where control does not come. -/
theorem Typed.bind (h : fn.Typed L E cur) {l : Label} (hl : E.labels[l]? = some q)
    (hcur : ∀ p, cur = .live p → p.Enters q) {builder : Builder}
    (hb : fn.builder.bind l = some builder) :
    Typed L E { fn with builder, top := q.layout.length, size := max fn.size q.layout.length }
      (.live q) := by
  have hsame := Builder.bind_same hb
  have hnext : ∀ p ∈ cur.point?, p.Enters q := by
    cases cur with
    | live p =>
      rintro _ ⟨⟩
      exact hcur p rfl
    | dead => exact nofun
  obtain ⟨pts, ht, hlog, r, hr, henter⟩ := h.code
  obtain ⟨r', hr', henter'⟩ := Builder.Typing.exists_enters hnext hr
  refine ⟨⟨pts, ?_, hlog.congr hsame.1 hsame.2 (Builder.bind_keeps hb), r', hr',
    henter.trans henter'⟩, h.captures, ?_, ?_, h.root, rfl, ?_⟩
  · exact ((ht.weaken hnext).mono_size (Int.le_max_left _ _)).bind hl (Int.le_max_right _ _) hb
  · exact hsame.1 ▸ h.sound
  · exact Int.le_trans h.params (Int.le_max_left _ _)
  · dsimp only
    omega

theorem Typed.append (h : fn.Typed L E (.live p)) (cur : Cursor) {i : Inst} {f : Flow}
    {sites : List Site}
    (hflow : i.Flows E.captures p.layout f) (hsound : L.Allows E.counts i)
    (hlog : L.Appends L' fn.builder i p sites)
    (hleads : i.Leads (E.labels[·]?) (sites.map (·.label)) p cur.point? f)
    (hfit : Builder.SitesFit fn.builder.insts.size i sites)
    (hplaces : ∀ s ∈ sites, s.inst = fn.builder.insts.size)
    (hbuilder : fn'.builder = fn.builder.withInst i sites)
    (hupvalues : fn'.upvalues = fn.upvalues) (hparams : fn'.params = fn.params)
    (hsize : fn.size ≤ fn'.size)
    (hfalls : ∀ l, f.fall = some l → (l.length : Int) ≤ fn'.size ∨ i.op = .install)
    (hcounts : fn'.CountsAt cur) : fn'.Typed L' E cur := by
  obtain ⟨pts, ht, hholds, q, hq, henter⟩ := h.code
  refine ⟨⟨pts ++ [p], ?_, ?_, q, ?_, ?_⟩, ?_, ?_, ?_, ?_, hcounts⟩
  · rw [hbuilder]
    exact ht.append hflow hleads hfit hplaces hsize hfalls
  · rw [hbuilder]
    exact hlog.holds pts hholds ht.count hplaces ht.places
  · rw [List.getElem?_append_left (by simp)]
    exact hq
  · rw [hparams]
    exact henter
  · rw [hupvalues]
    exact h.captures
  · rw [hbuilder]
    intro j hj
    have hfinished : L.finished ⊆ L'.finished := hlog.finished ▸ List.Subset.refl _
    obtain hj | rfl := Array.mem_push.1 hj
    · exact (h.sound j hj).mono hfinished
    · exact hsound.mono hfinished
  · rw [hparams]
    exact Int.le_trans h.params hsize
  · rw [hparams]
    exact h.root

/-- Heights stay far from the greatest machine integer while memory can hold the function. -/
theorem Typed.length_lt (h : fn.Typed L E (.live p)) (hsize : fn.size ≤ fn'.size)
    (hinsts : fn.builder.insts.size ≤ fn'.builder.insts.size) (hlarge : fn'.isTooLarge = false) :
    (p.layout.length : Int) < Func.addressLimit := by
  obtain ⟨htop, hle⟩ := h.height
  simp only [isTooLarge, Bool.or_eq_false_iff, decide_eq_false_iff_not] at hlarge
  unfold Frame.roomLimit at hlarge
  unfold Func.addressLimit
  omega

section

variable (h : fn.Typed L E (.live p)) {i j : Inst} {f : Flow} {sites : List Site} {b : Builder}
  {w : Watch Label} (hflow : i.Flows E.captures p.layout f)
  (hsound : L.Allows E.counts i) (hlog : L.Appends L' fn.builder i p sites)
  (hfit : Builder.SitesFit fn.builder.insts.size i sites)
  (hplaces : ∀ s ∈ sites, s.inst = fn.builder.insts.size)
  (hb : b = fn.builder.withInst i sites)
  (heffect : j.effect = i.effect)
  (hlarge : (Compiling.track { fn with builder := b } j).isTooLarge = false)

include h hflow hsound hlog hfit hplaces hb heffect hlarge

/-- The height is tracked, whether control falls through or not. -/
theorem Typed.track
    (hleads : i.Leads (E.labels[·]?) (sites.map (·.label)) p (f.fall.map (⟨·, w⟩)) f) :
    (Compiling.track { fn with builder := b } j).Typed L' E (.behind p w i f.fall) := by
  have hsize : fn.size ≤ (Compiling.track { fn with builder := b } j).size := Int.le_max_left _ _
  obtain ⟨htop, hle⟩ := h.height
  cases hfall : f.fall with
  | some l =>
    have hlt := h.length_lt hsize (by simp [Compiling.track, hb, Builder.withInst]) hlarge
    have height := (hflow.length_fall hlt hfall).2
    have htop' : (Compiling.track { fn with builder := b } j).top = l.length := by
      simp only [Compiling.track, heffect]
      omega
    have hle' : (l.length : Int) ≤ (Compiling.track { fn with builder := b } j).size := by
      rw [← htop']
      exact Int.le_max_right _ _
    rw [hfall] at hleads
    refine h.append (.live ⟨l, w⟩) hflow hsound hlog hleads hfit hplaces hb rfl rfl hsize ?_
      ⟨htop', ?_⟩
    · intro l' hl'
      cases Option.some.inj (hfall.symm.trans hl')
      exact .inl hle'
    · omega
  | none =>
    rw [hfall] at hleads
    refine h.append (.dead _ _) hflow hsound hlog hleads hfit hplaces hb rfl rfl hsize ?_
      ⟨?_, ?_, hlarge⟩
    · simp [hfall]
    · simp only [Compiling.track, heffect, htop]
    · simp only [Compiling.track, hb, Builder.withInst, Array.size_push]
      omega

end

theorem Typed.start {isRoot : Bool} {slots : List (Option Int)} {counts : CapturedCounts}
    {blockSize : Int} (hbuilder : fn.builder = .empty blockSize) (hupvalues : fn.upvalues = [])
    (htop : fn.top = fn.params.length) (hsize : fn.size = fn.params.length)
    (hroot : isRoot = true → fn.params = []) (hpast : L.past = []) (hbound : L.bound = []) :
    fn.Typed L ⟨isRoot, [], 0, slots, counts⟩
      (.live ⟨Layout.values fn.params.length, .off⟩) where
  code := by
    refine ⟨[], ?_, ⟨by simp [hpast], by simp, by simp [hbound]⟩, _, rfl, .refl _⟩
    rw [hbuilder]
    refine ⟨?_, rfl, rfl, by simp [Builder.empty], by simp [Builder.empty],
      by simp [Builder.empty], by simp [Builder.empty]⟩
    unfold Builder.empty Builder.minBlockSize Builder.defaultBlockSize
    dsimp only
    split <;> omega
  captures := by simp [hupvalues]
  sound := by simp [hbuilder, Builder.empty]
  params := by omega
  root := hroot
  height := by
    refine ⟨by simp [htop], ?_⟩
    rw [htop, hsize]
    omega

/-- A function is made of the code and the records of one under construction. -/
structure Makes (fn : FunctionState) (code : Code) (result : Func) : Prop where
  code : result.code = some code
  entry : result.entry = 0
  frameSize : result.frameSize = max fn.size fn.params.length
  numParams : result.numParams = fn.params.length
  params : result.params = fn.params
  upvalues : result.upvalues = fn.upvalues

section

variable {reached : Nat} {top : Int} (h : fn.Typed L E (.dead reached top)) {code : Code}
  (hfinish : fn.builder.finish = .ok code)

include h hfinish

/-- Finished code has the instructions with their targets filled in, and links. -/
theorem Typed.mem_finish {block : List Inst} (hblock : block ∈ code.blocks) {i : Inst}
    (hi : i ∈ block) :
    (∃ j, Builder.SameButTargets j i ∧ L.Allows E.counts j ∧ Opcode.ofCode j.op.code = j.op) ∨
    ∃ line target, i = Builder.link fn.builder.blockSize line target := by
  obtain ⟨pts, ht, -⟩ := h.code
  rw [(Builder.Typing.finish_eq ht hfinish).1] at hblock
  refine (Builder.mem_codeOf ht.blockSize hblock hi).imp_left fun hi => ?_
  obtain ⟨n, hn⟩ := List.mem_iff_getElem?.1 hi
  rw [Array.getElem?_toList, Builder.resolved_getElem?] at hn
  obtain ⟨j, hj, rfl⟩ := Option.map_eq_some_iff.1 hn
  obtain ⟨p, f, -, hflow, -⟩ := ht.insts n j hj
  exact ⟨j, Builder.setTargets_same .., h.sound j (Array.mem_of_getElem? hj), hflow.ofCode_op⟩

/-- Records say everything about finished code. -/
theorem Typed.finish_isRegular : code.IsRegular := by
  obtain ⟨pts, ht, -, q, hq, -⟩ := h.code
  obtain ⟨hcode, hresolved⟩ := Builder.Typing.finish_eq ht hfinish
  have hne : fn.builder.resolved.toList ≠ [] := by
    rw [← List.length_pos_iff, hresolved]
    simpa [Cursor.point?] using (List.getElem?_eq_some_iff.1 hq).1
  obtain ⟨hsize, hblocks⟩ := Builder.blocksFrom_codeOf ht.blockSize hne
  rw [← hcode] at hsize hblocks
  refine ⟨hsize, hblocks, fun block hblock i hi => ?_⟩
  rcases h.mem_finish hfinish hblock hi with ⟨j, hsame, hallows, hop⟩ | ⟨line, target, rfl⟩
  · refine ⟨hsame.op ▸ hop, fun hi => ?_⟩
    unfold Inst.hasConstant at hi
    rw [hsame.op] at hi
    exact hsame.value.trans (hallows.constant hi)
  · exact ⟨rfl, fun _ => rfl⟩

variable {result : Func} (hmakes : fn.Makes code result)

include hmakes

theorem Typed.finish_typing {pts : List (Point Label)}
    (ht : fn.builder.Typing E.labels E.captures fn.size pts none)
    (hstart : ∃ q, pts[0]? = some q ∧ Point.Enters ⟨Layout.values fn.params.length, .off⟩ q) :
    result.Typing code (Builder.Typing.addressPoints fn.builder result.frameSize pts) := by
  obtain ⟨-, -, hlarge⟩ := h.height
  simp only [isTooLarge, Bool.or_eq_false_iff, decide_eq_false_iff_not] at hlarge
  have hsize := h.params
  have hframe := hmakes.frameSize
  refine ht.finish hfinish hmakes.entry (by rw [hmakes.numParams, hmakes.params])
    (by rw [hmakes.upvalues, h.captures]) (by omega) (by omega) (by omega)
    (by rw [hmakes.params]; omega) ?_
  rw [hmakes.params]
  exact hstart

theorem Typed.finish : result.Sound E.counts := by
  obtain ⟨pts, ht, -, hstart⟩ := h.code
  refine Func.sound_iff.2 ⟨⟨code, _, hmakes.code, h.finish_typing hfinish hmakes ht ?_⟩, ?_⟩
  · simpa [Cursor.point?] using hstart
  · intro code' hcode' b hb i hi
    cases Option.some.inj (hmakes.code.symm.trans hcode')
    rcases h.mem_finish hfinish hb hi with ⟨j, hsame, hallows, -⟩ | ⟨line, target, rfl⟩
    · unfold Inst.Sound
      rw [hsame.value, hsame.func]
      exact hallows.sound
    · exact ⟨trivial, nofun⟩

/-- All instructions of a finished function have marks. -/
theorem Typed.finish_marked : ∃ new, L.Emits new ∧
    (L.past ++ new).length = fn.builder.insts.size ∧
    result.Marked (L.past ++ new) L.bound L.finished := by
  obtain ⟨pts, ht, hlog, hstart⟩ := h.code
  obtain ⟨new, hnew, hlength, hmarks⟩ := hlog.exists_marks ht.count
  have hmarks := @hmarks { L with past := L.past ++ new } rfl hlog.bound
  obtain ⟨hcode, hresolved⟩ := Builder.Typing.finish_eq ht hfinish
  have hblock : code.blockSize.toNat = fn.builder.blockSize := by
    rw [hcode]
    exact Int.toNat_natCast _
  have htyping := h.finish_typing hfinish hmakes ht (by simpa [Cursor.point?] using hstart)
  refine ⟨new, hnew, hlength, ⟨code, _, fn.builder.target, hmakes.code, htyping, ?_, ?_, ?_⟩, ?_, ?_⟩
  -- an instruction that can raise is no link, so it was emitted and has a mark
  · intro a p i hp hi hraises
    obtain ⟨ha, q, hq, -, rfl⟩ := Builder.Typing.addressPoints_eq_some.1 hp
    obtain ⟨n, rfl⟩ := Int.eq_ofNat_of_zero_le ha
    rw [Int.toNat_natCast] at hq
    have hlt : Builder.indexAt fn.builder.blockSize n < pts.length :=
      (List.getElem?_eq_some_iff.1 hq).1
    obtain ⟨line, hat⟩ := Builder.codeOf_at? ht.blockSize (hresolved ▸ hlt :
      _ < fn.builder.resolved.toList.length)
    rw [hcode, hat] at hi
    split at hi
    next hinner =>
      obtain ⟨m, hm⟩ : ∃ m, (L.past ++ new)[Builder.indexAt fn.builder.blockSize n]? = some m :=
        ⟨_, List.getElem?_eq_getElem (by rw [hlength, ← ht.count]; exact hlt)⟩
      obtain ⟨hinst, -, hpoint⟩ := hmarks.past _ m hm
      rw [Array.getElem?_toList, Builder.resolved_getElem?, hinst] at hi
      cases hi
      rw [(Builder.setTargets_same ..).op] at hraises
      refine ⟨_, m, ?_, hm, hraises, ?_⟩
      · rw [hblock, Builder.addressOf_indexAt hinner]
      · rw [Option.some.inj (hq.symm.trans hpoint)]
    next =>
      cases hi
      cases hraises
  · intro k m hm
    obtain ⟨hinst, htargets, hpoint⟩ := hmarks.past k m hm
    have hk : k < pts.length := (List.getElem?_eq_some_iff.1 hpoint).1
    have hindex := Builder.indexAt_addressOf ht.blockSize k
    obtain ⟨line, hat⟩ := @Builder.codeOf_at? _ fn.builder.resolved.toList
      (Builder.addressOf fn.builder.blockSize k) ht.blockSize (by rw [hindex, hresolved]; exact hk)
    have hsame := Builder.setTargets_same fn.builder m.inst (fn.builder.sitesOf k)
    rw [hblock]
    refine ⟨_, ?_, hsame.op, hsame.count, ?_, ?_, ?_⟩
    · rw [hcode, hat, if_pos (Builder.addressOf_mod_lt ht.blockSize k), hindex,
        Array.getElem?_toList, Builder.resolved_getElem?, hinst]
      rfl
    · rw [ht.targets_resolved hfinish hinst, htargets]
    · intro p hp
      obtain ⟨-, q, hq, -, rfl⟩ := Builder.Typing.addressPoints_eq_some.1 hp
      rw [Int.toNat_natCast, hindex] at hq
      rw [Option.some.inj (hq.symm.trans hpoint)]
    · intro hop l hl
      rw [← htargets] at hl
      obtain ⟨p, f, -, -, hleads, -⟩ := ht.insts k m.inst hinst
      obtain ⟨base, hbase, hcount, -⟩ := hleads.installs hop l hl
      have hframe := hmakes.frameSize
      exact ⟨base, ht.handledAt_target (by omega) hbase (ht.isFixed_of_finish hfinish hinst hl),
        hcount⟩
  · intro e he
    have haim := hmarks.bound e he
    rw [hblock, Builder.target, Array.getD_eq_getD_getElem?, haim]
    rfl
  · intro code' hcode' b hb i hi g hg
    cases Option.some.inj (hmakes.code.symm.trans hcode')
    rcases h.mem_finish hfinish hb hi with ⟨j, hsame, hallows, -⟩ | ⟨line, target, rfl⟩
    · exact (hallows.func g (hsame.func ▸ hg)).2
    · cases hg
  · intro code' hcode'
    cases Option.some.inj (hmakes.code.symm.trans hcode')
    exact h.finish_isRegular hfinish

end

theorem Typed.relog (h : fn.Typed L E cur) (hsize : fn.builder.insts.size = L.past.length)
    (hpast : L'.past = L.past) (hbound : L'.bound = L.bound)
    (hfinished : L.finished ⊆ L'.finished) : fn.Typed L' E cur := by
  obtain ⟨pts, ht, hlog, hstart⟩ := h.code
  refine ⟨⟨pts, ht, ⟨fun k m hm => hlog.past k m (hpast ▸ hm), fun k i p hk hi => ?_,
    hbound ▸ hlog.bound⟩, hstart⟩, h.captures, fun i hi => ?_, h.params, h.root, h.height⟩
  · have hlt := (Array.getElem?_eq_some_iff.1 hi).1
    rw [hpast] at hk
    omega
  · exact (h.sound i hi).mono hfinished

theorem Typed.exists_marks (h : fn.Typed L E cur) :
    ∃ new, L.Emits new ∧ (L.past ++ new).length = fn.builder.insts.size ∧
      ∀ {L' : Log}, L'.past = L.past ++ new →
        (∀ e ∈ L'.bound, fn.builder.aims[e.1]? = some (some (.place e.2))) →
        L.finished ⊆ L'.finished → fn.Typed L' E cur := by
  obtain ⟨pts, ht, hlog, hstart⟩ := h.code
  obtain ⟨new, hnew, hlength, hmarks⟩ := hlog.exists_marks ht.count
  refine ⟨new, hnew, hlength, fun {L'} hpast hbound hfinished => ?_⟩
  refine ⟨⟨pts, ht, hmarks hpast hbound, hstart⟩, h.captures, fun i hi => ?_, h.params, h.root,
    h.height⟩
  exact (h.sound i hi).mono hfinished

end FunctionState

end StagedScript
