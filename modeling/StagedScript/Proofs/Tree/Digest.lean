import StagedScript.Proofs.Tree.Bare
import StagedScript.Tree.Digest
import Mathlib.Algebra.Group.Nat.Defs

/-!
# Serial forms tell expressions apart

Serial forms are a prefix code: of two serial forms at the beginning of the same bytes, both belong
to the same expression, and the same bytes follow.  Every part begins with a tag, or its length is
known from what was read before, so the argument goes through the parts of a form from left to
right.
-/

namespace StagedScript

namespace Serial

/-- If two codes stand at the beginning of the same bytes, they stand for the same thing, and the
same bytes follow. -/
def Splits (u v : Bytes) (same : Prop) : Prop := ∀ x y, u ++ x = v ++ y → same ∧ x = y

namespace Splits

variable {u v u' v' : Bytes} {p q : Prop}

theorem nil : Splits [] [] True := fun _ _ h => ⟨trivial, h⟩

theorem cons (c : UInt8) (h : Splits u v p) : Splits (c :: u) (c :: v) p := by
  intro x y heq
  exact h x y (List.cons.inj heq).2

theorem of_ne {c d : UInt8} (hne : c ≠ d) : Splits (c :: u) (d :: v) p := by
  intro x y heq
  exact absurd (List.cons.inj heq).1 hne

/-- One code after another.  The second may be read with what the first one stands for. -/
theorem append (h : Splits u v p) (h' : p → Splits u' v' q) :
    Splits (u ++ u') (v ++ v') (p ∧ q) := by
  intro x y heq
  rw [List.append_assoc, List.append_assoc] at heq
  obtain ⟨hp, heq⟩ := h _ _ heq
  obtain ⟨hq, heq⟩ := h' hp _ _ heq
  exact ⟨⟨hp, hq⟩, heq⟩

/-- One code after another, where the second begins with a length. -/
theorem «then» {u'' v'' : Bytes} (h : Splits u v p) (h' : p → Splits (u' ++ u'') (v' ++ v'') q) :
    Splits (u ++ u' ++ u'') (v ++ v' ++ v'') (p ∧ q) := by
  rw [List.append_assoc, List.append_assoc]
  exact h.append h'

theorem imp (h : Splits u v p) (hpq : p → q) : Splits u v q := fun x y heq =>
  ⟨hpq (h x y heq).1, (h x y heq).2⟩

theorem of_length (hlength : u.length = v.length) (h : u = v → p) : Splits u v p := by
  intro x y heq
  obtain ⟨huv, hxy⟩ := List.append_inj heq hlength
  exact ⟨h huv, hxy⟩

end Splits

/-! ### Numbers, texts and declarations -/

@[simp] theorem bigEndian_length (width n : Nat) : (bigEndian width n).length = width := by
  induction width generalizing n with
  | zero => rfl
  | succ w ih => simp [bigEndian, ih]

theorem toUInt8_inj {n m : Nat} (h : n.toUInt8 = m.toUInt8) : n % 256 = m % 256 := by
  have := congrArg UInt8.toNat h
  simpa using this

theorem bigEndian_inj {width n m : Nat} (hn : n < 256 ^ width) (hm : m < 256 ^ width)
    (h : bigEndian width n = bigEndian width m) : n = m := by
  induction width generalizing n m with
  | zero => omega
  | succ w ih =>
    obtain ⟨hhigh, hlow⟩ := List.append_inj h (by simp)
    rw [Nat.pow_succ, Nat.mul_comm] at hn hm
    have hdiv := ih (Nat.div_lt_of_lt_mul hn) (Nat.div_lt_of_lt_mul hm) hhigh
    have hmod := toUInt8_inj (List.cons.inj hlow).1
    omega

theorem bigEndian_splits {width n m : Nat} (hn : n < 256 ^ width) (hm : m < 256 ^ width) :
    Splits (bigEndian width n) (bigEndian width m) (n = m) :=
  .of_length (by simp) (bigEndian_inj hn hm)

theorem count_splits {n m : Nat} (hn : n < lengthLimit) (hm : m < lengthLimit) :
    Splits (count n) (count m) (n = m) :=
  bigEndian_splits hn hm

theorem text_splits {s t : Bytes} (hs : IsShort s) (ht : IsShort t) :
    Splits (text s) (text t) (s = t) :=
  ((count_splits hs ht).append fun hlength => .of_length hlength id).imp And.right

theorem flag_splits (b c : Bool) : Splits (flag b) (flag c) (b = c) := by
  refine .of_length (by cases b <;> cases c <;> rfl) ?_
  cases b <;> cases c <;> simp [flag]

theorem real_splits (x y : Real64) : Splits (real x) (real y) (x = y) := by
  refine (bigEndian_splits x.bits.toNat_lt y.bits.toNat_lt).imp fun h => ?_
  cases x
  cases y
  exact congrArg Real64.mk (UInt64.toNat.inj h)

theorem decl_splits {d e : Decl} (hd : IsShort d.name) (he : IsShort e.name) :
    Splits (decl d) (decl e) (d.bare = e.bare) :=
  ((text_splits hd he).cons 0x84).imp fun h => by simp [Decl.bare, h]

theorem flatMap_decl_splits {ds es : List Decl} (hds : ∀ d ∈ ds, IsShort d.name)
    (hes : ∀ e ∈ es, IsShort e.name) (hlength : ds.length = es.length) :
    Splits (ds.flatMap decl) (es.flatMap decl) (ds.map Decl.bare = es.map Decl.bare) := by
  induction ds generalizing es with
  | nil =>
    cases List.length_eq_zero_iff.1 hlength.symm
    exact Splits.nil.imp fun _ => rfl
  | cons d ds ih =>
    cases es with
    | nil => simp at hlength
    | cons e es =>
      have hd := List.forall_mem_cons.1 hds
      have he := List.forall_mem_cons.1 hes
      refine ((decl_splits hd.1 he.1).append fun _ => ih hd.2 he.2 (by simpa using hlength)).imp ?_
      rintro ⟨hde, hrest⟩
      simp [hde, hrest]

theorem decls_splits {ds es : List Decl} (hds : AreShort ds) (hes : AreShort es) :
    Splits (decls ds) (decls es) (ds.map Decl.bare = es.map Decl.bare) :=
  ((count_splits hds.1 hes.1).append fun hlength =>
    flatMap_decl_splits hds.2 hes.2 hlength).imp And.right

theorem declOption_splits {o p : Option Decl} (ho : ∀ d ∈ o, IsShort d.name)
    (hp : ∀ d ∈ p, IsShort d.name) :
    Splits (declOption o) (declOption p) (o.map Decl.bare = p.map Decl.bare) := by
  cases o with
  | none =>
    cases p with
    | none => exact (Splits.nil.cons 0x1f).imp fun _ => rfl
    | some e => exact .of_ne (by decide)
  | some d =>
    cases p with
    | none => exact .of_ne (by decide)
    | some e => exact (decl_splits (ho d rfl) (hp e rfl)).imp fun h => by simp [h]

theorem guard_splits {g g' : Guard} (hg : g.Serializable) (hg' : g'.Serializable) :
    Splits (guard g) (guard g') (g = g') := by
  cases g with
  | plain =>
    cases g' with
    | plain => exact .of_length rfl fun _ => rfl
    | _ => exact .of_ne (by decide)
  | «variable» name =>
    cases g' with
    | «variable» name' => exact ((text_splits hg hg').cons _).imp fun h => by rw [h]
    | _ => exact .of_ne (by decide)
  | letName name =>
    cases g' with
    | letName name' => exact ((text_splits hg hg').cons _).imp fun h => by rw [h]
    | _ => exact .of_ne (by decide)

/-! ### Constants -/

mutual

theorem value_splits : (v w : Value) → v.Serializable → w.Serializable →
    Splits (value v) (value w) (v = w)
  | .nil, w, _, hw => by
    cases w with
    | nil => exact (Splits.nil.cons _).imp fun _ => rfl
    | _ => first | exact hw.elim | exact .of_ne (by decide)
  | .bool b, w, _, hw => by
    cases w with
    | bool c => exact ((flag_splits b c).cons _).imp fun h => by rw [h]
    | _ => first | exact hw.elim | exact .of_ne (by decide)
  | .int n, w, _, hw => by
    cases w with
    | int m =>
      refine ((bigEndian_splits n.toUInt64.toNat_lt m.toUInt64.toNat_lt).cons _).imp fun h => ?_
      exact congrArg (fun k : UInt64 => Value.int k.toInt64) (UInt64.toNat.inj h)
    | _ => first | exact hw.elim | exact .of_ne (by decide)
  | .real x, w, _, hw => by
    cases w with
    | real y => exact ((real_splits x y).cons _).imp fun h => by rw [h]
    | _ => first | exact hw.elim | exact .of_ne (by decide)
  | .complex re im, w, _, hw => by
    cases w with
    | complex re' im' =>
      refine (((real_splits re re').append fun _ => real_splits im im').cons _).imp ?_
      rintro ⟨rfl, rfl⟩
      rfl
    | _ => first | exact hw.elim | exact .of_ne (by decide)
  | .str s, w, hs, hw => by
    cases w with
    | str t => exact ((text_splits hs hw).cons _).imp fun h => by rw [h]
    | _ => first | exact hw.elim | exact .of_ne (by decide)
  | .bytes s, w, hs, hw => by
    cases w with
    | bytes t => exact ((text_splits hs hw).cons _).imp fun h => by rw [h]
    | _ => first | exact hw.elim | exact .of_ne (by decide)
  | .sym s, w, hs, hw => by
    cases w with
    | sym t => exact ((text_splits hs hw).cons _).imp fun h => by rw [h]
    | _ => first | exact hw.elim | exact .of_ne (by decide)
  | .method s, w, hs, hw => by
    cases w with
    | method t => exact ((text_splits hs hw).cons _).imp fun h => by rw [h]
    | _ => first | exact hw.elim | exact .of_ne (by decide)
  | .tuple vs, w, hvs, hw => by
    cases w with
    | tuple ws =>
      refine (((count_splits hvs.1 hw.1).append fun hlength =>
        values_splits vs ws hvs.2 hw.2 hlength).cons _).imp ?_
      rintro ⟨-, rfl⟩
      rfl
    | _ => first | exact hw.elim | exact .of_ne (by decide)

theorem values_splits : (vs ws : List Value) → Value.AllSerializable vs → Value.AllSerializable ws →
    vs.length = ws.length → Splits (values vs) (values ws) (vs = ws)
  | [], [], _, _, _ => Splits.nil.imp fun _ => rfl
  | v :: vs, w :: ws, hv, hw, hlength => by
    refine ((value_splits v w hv.1 hw.1).append fun _ =>
      values_splits vs ws hv.2 hw.2 (by simpa using hlength)).imp ?_
    rintro ⟨rfl, rfl⟩
    rfl

end

/-! ### Expressions -/

/-- The positions of the constructors of expressions, for every kind in the order of their numbers.
-/
def forms : List Nat := [
  1, 2, 6, 7, 8, 9, 3, 10, 11, 12, 13, 13, 14, 15, 16, 4, 17, 18, 18, 19, 20, 21, 22, 22, 22, 22,
  22, 22, 22, 22, 22, 22, 22, 22, 23, 24, 25, 26, 27, 28, 29, 30, 30, 31, 32, 33, 34, 35, 5]

/-- The first byte of a serial form tells the constructor. -/
theorem expr_eq_cons (e : Expr) :
    ∃ t s, expr e = t :: s ∧ forms.getD (t - 0x20).toNat 0 = e.ctorIdx := by
  cases e with
  | logic _ op => cases op <;> exact ⟨_, _, rfl, rfl⟩
  | exitTest _ test => cases test <;> exact ⟨_, _, rfl, rfl⟩
  | sequence _ kind => cases kind <;> exact ⟨_, _, rfl, rfl⟩
  | bind _ binder pattern => cases binder <;> cases pattern <;> exact ⟨_, _, rfl, rfl⟩
  | _ => exact ⟨_, _, rfl, rfl⟩

/-- Serial forms of different constructors differ in their first bytes. -/
theorem Splits.of_ctorIdx {a b : Expr} {p : Prop}
    (h : a.ctorIdx = b.ctorIdx → Splits (expr a) (expr b) p) : Splits (expr a) (expr b) p := by
  obtain ⟨t, s, ha, hta⟩ := expr_eq_cons a
  obtain ⟨t', s', hb, htb⟩ := expr_eq_cons b
  by_cases heq : t = t'
  · exact h (by rw [← hta, ← htb, heq])
  · rw [ha, hb]
    exact .of_ne heq

/-- A code behind a tag that tells something. -/
theorem Splits.tagged {c d : UInt8} {u v : Bytes} {p q : Prop} (hcd : c = d → p)
    (h : Splits u v q) : Splits (c :: u) (d :: v) (p ∧ q) := by
  intro x y heq
  obtain ⟨htag, hrest⟩ := List.cons.inj heq
  exact ⟨⟨hcd htag, (h x y hrest).1⟩, (h x y hrest).2⟩

theorem kindTag_inj {k k' : Kind} (h : kindTag k.code = kindTag k'.code) : k = k' := by
  have hall : ∀ k : Kind, Kind.all[(kindTag k.code - 0x20).toNat]? = some k := by
    intro k
    cases k <;> rfl
  exact Option.some.inj ((hall k).symm.trans (h ▸ hall k'))

theorem ofBinder_inj {binder binder' : Binder} {pattern pattern' : Pattern}
    (h : Kind.ofBinder binder pattern = .ofBinder binder' pattern') :
    binder = binder' ∧ pattern = pattern' := by
  cases binder <;> cases pattern <;> cases binder' <;> cases pattern' <;>
    first | exact ⟨rfl, rfl⟩ | cases h

/-- Serial forms that begin like that of an expression are those of the same expressions. -/
def Reads (a : Expr) : Prop :=
  ∀ b : Expr, b.Serializable → Splits (expr a) (expr b) (a.bare = b.bare)

theorem Reads.of_ctorIdx {a : Expr}
    (h : ∀ b : Expr, b.ctorIdx = a.ctorIdx → b.Serializable →
      Splits (expr a) (expr b) (a.bare = b.bare)) : Reads a := by
  intro b hb
  exact Splits.of_ctorIdx fun hctor => h b hctor.symm hb

theorem Reads.of_tag {a : Expr} {tag : UInt8} (ha : expr a = [tag])
    (h : ∀ b : Expr, b.ctorIdx = a.ctorIdx → expr b = [tag] ∧ a.bare = b.bare) : Reads a := by
  refine .of_ctorIdx fun b hctor _ => ?_
  rw [ha, (h b hctor).1]
  exact (Splits.nil.cons tag).imp fun _ => (h b hctor).2

def ReadsAll (as : List Expr) : Prop :=
  ∀ bs : List Expr, IsShort bs ∧ Expr.AllSerializable bs →
    Splits (count as.length ++ exprs as) (count bs.length ++ exprs bs)
      (Expr.bareAll as = Expr.bareAll bs)

def ReadsParams (ps : List Param) : Prop :=
  ∀ qs : List Param, IsShort qs ∧ Param.AllSerializable qs →
    Splits (count ps.length ++ params ps) (count qs.length ++ params qs)
      (Param.bareAll ps = Param.bareAll qs)

/-! The same for clauses, which end with a mark. -/

def ReadsCases (cs : List CondCase) : Prop :=
  ∀ cs', CondCase.AllSerializable cs' →
    Splits (condCases cs) (condCases cs') (CondCase.bareAll cs = CondCase.bareAll cs')

def ReadsHandlers (hs : List Handler) : Prop :=
  ∀ hs', Handler.AllSerializable hs' →
    Splits (handlers hs) (handlers hs') (Handler.bareAll hs = Handler.bareAll hs')

def ReadsSelect (cs : List SelectClause) : Prop :=
  ∀ cs', SelectClause.AllSerializable cs' →
    Splits (selectClauses cs) (selectClauses cs')
      (SelectClause.bareAll cs = SelectClause.bareAll cs')

def ReadsGen (cs : List GenClause) : Prop :=
  ∀ cs', GenClause.AllSerializable cs' →
    Splits (genClauses cs) (genClauses cs') (GenClause.bareAll cs = GenClause.bareAll cs')

/-! One lemma for each constructor: the first bytes agree, so the other expression has the same
constructor, and the parts are read from left to right. -/

section

variable {s : Span} {e f g : Expr} {es : List Expr} {v : Value} {name : Bytes}

theorem reads_value (hv : v.Serializable) : Reads (.value s v) := by
  refine .of_ctorIdx fun b h => Expr.value.elim b h fun s' w hb => ?_
  refine ((value_splits v w hv hb).cons _).imp ?_
  rintro rfl
  rfl

theorem reads_ident (hname : IsShort name) : Reads (.ident s name) := by
  refine .of_ctorIdx fun b h => Expr.ident.elim b h fun s' name' hb => ?_
  refine ((text_splits hname hb).cons _).imp ?_
  rintro rfl
  rfl

theorem reads_string (hes : ReadsAll es) : Reads (.string s es) := by
  refine .of_ctorIdx fun b h => Expr.string.elim b h fun s' es' hb => ?_
  refine ((hes es' hb).cons _).imp fun h => ?_
  simp only [Expr.bare, h]

theorem reads_assign (he : Reads e) (hf : Reads f) : Reads (.assign s e f) := by
  refine .of_ctorIdx fun b h => Expr.assign.elim b h fun s' e' f' hb => ?_
  refine (((he e' hb.1).append fun _ => hf f' hb.2).cons _).imp fun h => ?_
  simp only [Expr.bare, h]

theorem reads_call (he : Reads e) (hes : ReadsAll es) : Reads (.call s e es) := by
  refine .of_ctorIdx fun b h => Expr.call.elim b h fun s' e' es' hb => ?_
  refine (((he e' hb.1).then fun _ => hes es' hb.2).cons _).imp fun h => ?_
  simp only [Expr.bare, h]

theorem reads_constCall (hv : v.Serializable) (hes : ReadsAll es) : Reads (.constCall s v es) := by
  refine .of_ctorIdx fun b h => Expr.constCall.elim b h fun s' w es' hb => ?_
  refine (((value_splits v w hv hb.1).then fun _ => hes es' hb.2).cons _).imp fun h => ?_
  simp only [Expr.bare, h]

theorem reads_resolve (he : Reads e) (hname : IsShort name) : Reads (.resolve s e name) := by
  refine .of_ctorIdx fun b h => Expr.resolve.elim b h fun s' e' name' hb => ?_
  refine (((he e' hb.1).append fun _ => text_splits hname hb.2).cons _).imp fun h => ?_
  simp only [Expr.bare, h]

theorem reads_logic {op : Connective} (he : Reads e) (hf : Reads f) :
    Reads (.logic s op e f) := by
  refine .of_ctorIdx fun b h => Expr.logic.elim b h fun s' op' e' f' hb => ?_
  refine (Splits.tagged kindTag_inj ((he e' hb.1).append fun _ => hf f' hb.2)).imp
    fun ⟨hop, h⟩ => ?_
  obtain rfl : op = op' := by cases op <;> cases op' <;> first | rfl | cases hop
  simp only [Expr.bare, h]

theorem reads_not (he : Reads e) : Reads (.not s e) := by
  refine .of_ctorIdx fun b h => Expr.not.elim b h fun s' e' hb => ?_
  refine ((he e' hb).cons _).imp fun h => ?_
  simp only [Expr.bare, h]

theorem reads_cond {cs : List CondCase}
    (hcs : ReadsCases cs) (he : Reads e) :
    Reads (.cond s cs e) := by
  refine .of_ctorIdx fun b h => Expr.cond.elim b h fun s' cs' e' hb => ?_
  refine (((hcs cs' hb.1).append fun _ => he e' hb.2).cons _).imp fun h => ?_
  simp only [Expr.bare, h]

theorem reads_loop (he : Reads e) : Reads (.loop s e) := by
  refine .of_ctorIdx fun b h => Expr.loop.elim b h fun s' e' hb => ?_
  refine ((he e' hb).cons _).imp fun h => ?_
  simp only [Expr.bare, h]

theorem reads_exit (he : Reads e) : Reads (.exit s e) := by
  refine .of_ctorIdx fun b h => Expr.exit.elim b h fun s' e' hb => ?_
  refine ((he e' hb).cons _).imp fun h => ?_
  simp only [Expr.bare, h]

theorem reads_exitTest {test : ExitTest} (he : Reads e) (hf : Reads f) :
    Reads (.exitTest s test e f) := by
  refine .of_ctorIdx fun b h => Expr.exitTest.elim b h fun s' test' e' f' hb => ?_
  refine (Splits.tagged kindTag_inj ((he e' hb.1).append fun _ => hf f' hb.2)).imp
    fun ⟨htest, h⟩ => ?_
  obtain rfl : test = test' := by cases test <;> cases test' <;> first | rfl | cases htest
  simp only [Expr.bare, h]

variable {ds : List Decl} {line : Nat}

theorem reads_forIn {key : Option Decl} {unpack : Bool} (hkey : ∀ d ∈ key, IsShort d.name)
    (hds : AreShort ds) (he : Reads e) (hf : Reads f) (hg : Reads g) :
    Reads (.forIn s key ds unpack e f g) := by
  refine .of_ctorIdx fun b h => Expr.forIn.elim b h ?_
  intro s' key' ds' unpack' e' f' g' hb
  obtain ⟨hkey', hds', he', hf', hg'⟩ := hb
  refine ((((((declOption_splits hkey hkey').append fun _ => decls_splits hds hds').append
    fun _ => flag_splits unpack unpack').append fun _ => he e' he').append
    fun _ => hf f' hf').append fun _ => hg g' hg').cons _ |>.imp fun h => ?_
  simp only [Expr.bare, h]

theorem reads_each (he : Reads e) : Reads (.each s e) := by
  refine .of_ctorIdx fun b h => Expr.each.elim b h fun s' e' hb => ?_
  refine ((he e' hb).cons _).imp fun h => ?_
  simp only [Expr.bare, h]

theorem reads_block {vars lets defs : List Decl} {hs : List Handler} (hvars : AreShort vars)
    (hlets : AreShort lets) (hdefs : AreShort defs) (hes : ReadsAll es)
    (hhs : ReadsHandlers hs) :
    Reads (.block s vars lets defs es hs) := by
  refine .of_ctorIdx fun b h => Expr.block.elim b h ?_
  rintro s' vars' lets' defs' es' hs' ⟨⟨hvars', hlets', hdefs'⟩, hes', hhs'⟩
  refine (((((decls_splits hvars hvars').append fun _ => decls_splits hlets hlets').append
    fun _ => decls_splits hdefs hdefs').then fun _ => hes es' hes').append
    fun _ => hhs hs' hhs').cons _ |>.imp fun h => ?_
  simp only [Expr.bare, h]

theorem reads_bind {binder : Binder} {pattern : Pattern} (hds : AreShort ds) (he : Reads e) :
    Reads (.bind s binder pattern ds e) := by
  refine .of_ctorIdx fun b h => Expr.bind.elim b h ?_
  intro s' binder' pattern' ds' e' hb
  refine (Splits.tagged kindTag_inj ((decls_splits hds hb.1).append fun _ => he e' hb.2)).imp
    fun ⟨hkind, h⟩ => ?_
  obtain ⟨rfl, rfl⟩ := ofBinder_inj hkind
  simp only [Expr.bare, h]

theorem reads_function {ps : List Param} {extra named : Bool} (hps : ReadsParams ps)
    (he : Reads e) : Reads (.function s ps extra named e) := by
  refine .of_ctorIdx fun b h => Expr.function.elim b h ?_
  intro s' ps' extra' named' e' hb
  refine (((((flag_splits extra extra').append fun _ => flag_splits named named').then
    fun _ => hps ps' hb.1).append fun _ => he e' hb.2).cons _).imp fun h => ?_
  simp only [Expr.bare, h]

theorem reads_method {ps : List Param} {extra : Bool} (hname : IsShort name) (hps : ReadsParams ps)
    (he : Reads e) :
    Reads (.method s name ps extra e) := by
  refine .of_ctorIdx fun b h => Expr.method.elim b h ?_
  intro s' name' ps' extra' e' hb
  refine ((((((text_splits hname hb.1).append fun _ => flag_splits extra extra').append
    fun _ => flag_splits false false).then fun _ => hps ps' hb.2.1).append
    fun _ => he e' hb.2.2).cons _).imp fun h => ?_
  simp only [Expr.bare, h]

theorem reads_ret (he : Reads e) : Reads (.ret s e) := by
  refine .of_ctorIdx fun b h => Expr.ret.elim b h fun s' e' hb => ?_
  refine ((he e' hb).cons _).imp fun h => ?_
  simp only [Expr.bare, h]

theorem reads_suspend (he : Reads e) (hf : Reads f) : Reads (.suspend s e f) := by
  refine .of_ctorIdx fun b h => Expr.suspend.elim b h fun s' e' f' hb => ?_
  refine (((he e' hb.1).append fun _ => hf f' hb.2).cons _).imp fun h => ?_
  simp only [Expr.bare, h]

theorem reads_scoped (hds : AreShort ds) (hes : ReadsAll es) (he : Reads e) :
    Reads (.scoped s ds es e) := by
  refine .of_ctorIdx fun b h => Expr.scoped.elim b h fun s' ds' es' e' hb => ?_
  refine ((((decls_splits hds hb.1).then fun _ => hes es' hb.2.1).append
    fun _ => he e' hb.2.2).cons _).imp fun h => ?_
  simp only [Expr.bare, h]

theorem reads_switch (he : Reads e) (hes : ReadsAll es) (hf : Reads f) :
    Reads (.switch s e es f) := by
  refine .of_ctorIdx fun b h => Expr.switch.elim b h fun s' e' es' f' hb => ?_
  refine ((((he e' hb.1).then fun _ => hes es' hb.2.1).append
    fun _ => hf f' hb.2.2).cons _).imp fun h => ?_
  simp only [Expr.bare, h]

theorem reads_select {cs : List SelectClause} (he : Reads e)
    (hcs : ReadsSelect cs) (hf : Reads f) :
    Reads (.select s e cs f) := by
  refine .of_ctorIdx fun b h => Expr.select.elim b h fun s' e' cs' f' hb => ?_
  refine ((((he e' hb.1).append fun _ => hcs cs' hb.2.1).append
    fun _ => hf f' hb.2.2).cons _).imp fun h => ?_
  simp only [Expr.bare, h]

theorem reads_sequence {kind : SequenceKind} (hes : ReadsAll es) :
    Reads (.sequence s kind es) := by
  refine .of_ctorIdx fun b h => Expr.sequence.elim b h fun s' kind' es' hb => ?_
  refine (Splits.tagged kindTag_inj (hes es' hb)).imp fun ⟨hkind, h⟩ => ?_
  obtain rfl : kind = kind' := by cases kind <;> cases kind' <;> first | rfl | cases hkind
  simp only [Expr.bare, h]

theorem reads_map (hes : ReadsAll es) : Reads (.map s es) := by
  refine .of_ctorIdx fun b h => Expr.map.elim b h fun s' es' hb => ?_
  refine ((hes es' hb).cons _).imp fun h => ?_
  simp only [Expr.bare, h]

theorem reads_inline (he : Reads e) : Reads (.inline s e) := by
  refine .of_ctorIdx fun b h => Expr.inline.elim b h fun s' e' hb => ?_
  refine ((he e' hb).cons _).imp fun h => ?_
  simp only [Expr.bare, h]

theorem reads_quote (he : Reads e) (hes : ReadsAll es) : Reads (.quote s e es) := by
  refine .of_ctorIdx fun b h => Expr.quote.elim b h fun s' e' es' hb => ?_
  refine (((he e' hb.1).then fun _ => hes es' hb.2).cons _).imp fun h => ?_
  simp only [Expr.bare, h]

theorem reads_unquote {n : Nat} (hn : n < lengthLimit) (hname : IsShort name) :
    Reads (.unquote s n name) := by
  refine .of_ctorIdx fun b h => Expr.unquote.elim b h fun s' n' name' hb => ?_
  refine (((count_splits hn hb.1).append fun _ => text_splits hname hb.2).cons _).imp fun h => ?_
  simp only [Expr.bare, h]

theorem reads_generator {cs : List GenClause} (he : Reads e)
    (hcs : ReadsGen cs) :
    Reads (.generator s e cs) := by
  refine .of_ctorIdx fun b h => Expr.generator.elim b h fun s' e' cs' hb => ?_
  refine (((he e' hb.1).append fun _ => hcs cs' hb.2).cons _).imp fun h => ?_
  simp only [Expr.bare, h]

theorem readsCases_nil : ReadsCases []
  | [], _ => (Splits.nil.cons _).imp fun _ => rfl
  | ⟨_, _, _, _⟩ :: _, _ => .of_ne (by decide)

theorem readsCases_cons {g : Guard} {cs : List CondCase} (hg : g.Serializable) (he : Reads e)
    (hf : Reads f) (hcs : ReadsCases cs) : ReadsCases (⟨line, g, e, f⟩ :: cs)
  | [], _ => .of_ne (by decide)
  | ⟨_, g', e', f'⟩ :: cs', ⟨hg', he', hf', hcs'⟩ => by
    refine (((((guard_splits hg hg').append fun _ => he e' he').append fun _ =>
      hf f' hf').append fun _ => hcs cs' hcs').cons _).imp fun h => ?_
    simp only [CondCase.bareAll, h]

theorem readsHandlers_nil : ReadsHandlers []
  | [], _ => (Splits.nil.cons _).imp fun _ => rfl
  | ⟨_, _, _, _⟩ :: _, _ => .of_ne (by decide)

theorem readsHandlers_cons {hs : List Handler} (hname : IsShort name) (hes : ReadsAll es)
    (he : Reads e) (hhs : ReadsHandlers hs) :
    ReadsHandlers (⟨line, name, es, e⟩ :: hs)
  | [], _ => .of_ne (by decide)
  | ⟨_, name', es', e'⟩ :: hs', ⟨hname', hes', he', hhs'⟩ => by
    refine (((((text_splits hname hname').then fun _ => hes es' hes').append
      fun _ => he e' he').append fun _ => hhs hs' hhs').cons _).imp fun h => ?_
    simp only [Handler.bareAll, h]

theorem readsSelect_nil : ReadsSelect []
  | [], _ => (Splits.nil.cons _).imp fun _ => rfl
  | ⟨_, _, _, _⟩ :: _, _ => .of_ne (by decide)

theorem readsSelect_cons {cs : List SelectClause} (hname : IsShort name) (hes : ReadsAll es)
    (he : Reads e) (hcs : ReadsSelect cs) :
    ReadsSelect (⟨line, name, es, e⟩ :: cs)
  | [], _ => .of_ne (by decide)
  | ⟨_, name', es', e'⟩ :: cs', ⟨hname', hes', he', hcs'⟩ => by
    refine (((((text_splits hname hname').then fun _ => hes es' hes').append
      fun _ => he e' he').append fun _ => hcs cs' hcs').cons _).imp fun h => ?_
    simp only [SelectClause.bareAll, h]

theorem readsGen_nil : ReadsGen []
  | [], _ => (Splits.nil.cons _).imp fun _ => rfl
  | ⟨_, _, _, _, _, _⟩ :: _, _ => .of_ne (by decide)

theorem readsGen_cons {key : Option Decl} {unpack : Bool} {cs : List GenClause} (he : Reads e)
    (hkey : ∀ d ∈ key, IsShort d.name) (hds : AreShort ds) (hf : Reads f) (hcs : ReadsGen cs) :
    ReadsGen (⟨line, e, key, ds, unpack, f⟩ :: cs)
  | [], _ => .of_ne (by decide)
  | ⟨_, e', key', ds', unpack', f'⟩ :: cs', ⟨he', hkey', hds', hf', hcs'⟩ => by
    refine (((((((he e' he').append fun _ => declOption_splits hkey hkey').append
      fun _ => decls_splits hds hds').append fun _ => flag_splits unpack unpack').append
      fun _ => hf f' hf').append fun _ => hcs cs' hcs').cons _).imp fun h => ?_
    simp only [GenClause.bareAll, h]

end

theorem siblings_read {as : List Expr} (h : IsShort as)
    (hread : ∀ bs, Expr.AllSerializable bs → as.length = bs.length →
      Splits (exprs as) (exprs bs) (Expr.bareAll as = Expr.bareAll bs)) : ReadsAll as :=
  fun bs hbs => ((count_splits h hbs.1).append fun hlength => hread bs hbs.2 hlength).imp And.right

theorem parameters_read {ps : List Param} (h : IsShort ps)
    (hread : ∀ qs, Param.AllSerializable qs → ps.length = qs.length →
      Splits (params ps) (params qs) (Param.bareAll ps = Param.bareAll qs)) : ReadsParams ps :=
  fun qs hqs => ((count_splits h hqs.1).append fun hlength => hread qs hqs.2 hlength).imp And.right

mutual

/-- Serial forms are a prefix code. -/
theorem expr_reads : (a : Expr) → a.Serializable → Reads a
  | .absent, _ => .of_tag rfl fun b h => Expr.absent.elim b h ⟨rfl, rfl⟩
  | .nil _, _ => .of_tag rfl fun b h => Expr.nil.elim b h fun _ => ⟨rfl, rfl⟩
  | .blank _, _ => .of_tag rfl fun b h => Expr.blank.elim b h fun _ => ⟨rfl, rfl⟩
  | .old _, _ => .of_tag rfl fun b h => Expr.old.elim b h fun _ => ⟨rfl, rfl⟩
  | .next _, _ => .of_tag rfl fun b h => Expr.next.elim b h fun _ => ⟨rfl, rfl⟩
  | .retry _, _ => .of_tag rfl fun b h => Expr.retry.elim b h fun _ => ⟨rfl, rfl⟩
  | .value _ _, h => reads_value h
  | .ident _ _, h => reads_ident h
  | .string _ es, h => reads_string (siblings_read h.1 (exprs_splits es h.2))
  | .assign _ e f, h => reads_assign (expr_reads e h.1) (expr_reads f h.2)
  | .call _ e es, h => reads_call (expr_reads e h.1) (siblings_read h.2.1 (exprs_splits es h.2.2))
  | .constCall _ _ es, h => reads_constCall h.1 (siblings_read h.2.1 (exprs_splits es h.2.2))
  | .resolve _ e _, h => reads_resolve (expr_reads e h.1) h.2
  | .logic _ _ e f, h => reads_logic (expr_reads e h.1) (expr_reads f h.2)
  | .not _ e, h => reads_not (expr_reads e h)
  | .cond _ cs e, h => reads_cond (condCases_splits cs h.1) (expr_reads e h.2)
  | .loop _ e, h => reads_loop (expr_reads e h)
  | .exit _ e, h => reads_exit (expr_reads e h)
  | .exitTest _ _ e f, h => reads_exitTest (expr_reads e h.1) (expr_reads f h.2)
  | .forIn _ _ _ _ e f g, ⟨hkey, hds, he, hf, hg⟩ =>
    reads_forIn hkey hds (expr_reads e he) (expr_reads f hf) (expr_reads g hg)
  | .each _ e, h => reads_each (expr_reads e h)
  | .block _ _ _ _ es hs, ⟨⟨hvars, hlets, hdefs⟩, hes, hhs⟩ =>
    reads_block hvars hlets hdefs (siblings_read hes.1 (exprs_splits es hes.2))
      (handlers_splits hs hhs)
  | .bind _ _ _ _ e, h => reads_bind h.1 (expr_reads e h.2)
  | .function _ ps _ _ e, h =>
    reads_function (parameters_read h.1.1 (params_splits ps h.1.2)) (expr_reads e h.2)
  | .method _ _ ps _ e, ⟨hname, hps, he⟩ =>
    reads_method hname (parameters_read hps.1 (params_splits ps hps.2)) (expr_reads e he)
  | .ret _ e, h => reads_ret (expr_reads e h)
  | .suspend _ e f, h => reads_suspend (expr_reads e h.1) (expr_reads f h.2)
  | .scoped _ _ es e, ⟨hds, hes, he⟩ =>
    reads_scoped hds (siblings_read hes.1 (exprs_splits es hes.2)) (expr_reads e he)
  | .switch _ e es f, ⟨he, hes, hf⟩ =>
    reads_switch (expr_reads e he) (siblings_read hes.1 (exprs_splits es hes.2)) (expr_reads f hf)
  | .select _ e cs f, h =>
    reads_select (expr_reads e h.1) (selectClauses_splits cs h.2.1) (expr_reads f h.2.2)
  | .sequence _ _ es, h => reads_sequence (siblings_read h.1 (exprs_splits es h.2))
  | .map _ es, h => reads_map (siblings_read h.1 (exprs_splits es h.2))
  | .inline _ e, h => reads_inline (expr_reads e h)
  | .quote _ e es, h => reads_quote (expr_reads e h.1) (siblings_read h.2.1 (exprs_splits es h.2.2))
  | .unquote _ _ _, h => reads_unquote h.1 h.2
  | .generator _ e cs, h => reads_generator (expr_reads e h.1) (genClauses_splits cs h.2)

theorem exprs_splits : (as : List Expr) → Expr.AllSerializable as → ∀ bs,
    Expr.AllSerializable bs → as.length = bs.length →
    Splits (exprs as) (exprs bs) (Expr.bareAll as = Expr.bareAll bs)
  | [], _, [], _, _ => Splits.nil.imp fun _ => rfl
  | a :: as, ha, b :: bs, hb, hlength => by
    refine ((expr_reads a ha.1 b hb.1).append fun _ =>
      exprs_splits as ha.2 bs hb.2 (by simpa using hlength)).imp fun h => ?_
    simp only [Expr.bareAll, h]

theorem condCases_splits : (cs : List CondCase) → CondCase.AllSerializable cs → ReadsCases cs
  | [], _ => readsCases_nil
  | ⟨_, _, e, f⟩ :: cs, ⟨hg, he, hf, hcs⟩ =>
    readsCases_cons hg (expr_reads e he) (expr_reads f hf) (condCases_splits cs hcs)

theorem handlers_splits : (hs : List Handler) → Handler.AllSerializable hs → ReadsHandlers hs
  | [], _ => readsHandlers_nil
  | ⟨_, _, es, e⟩ :: hs, ⟨hname, hes, he, hhs⟩ =>
    readsHandlers_cons hname (siblings_read hes.1 (exprs_splits es hes.2)) (expr_reads e he)
      (handlers_splits hs hhs)

theorem selectClauses_splits :
    (cs : List SelectClause) → SelectClause.AllSerializable cs → ReadsSelect cs
  | [], _ => readsSelect_nil
  | ⟨_, _, es, e⟩ :: cs, ⟨hname, hes, he, hcs⟩ =>
    readsSelect_cons hname (siblings_read hes.1 (exprs_splits es hes.2)) (expr_reads e he)
      (selectClauses_splits cs hcs)

theorem genClauses_splits : (cs : List GenClause) → GenClause.AllSerializable cs → ReadsGen cs
  | [], _ => readsGen_nil
  | ⟨_, e, _, _, _, f⟩ :: cs, ⟨he, hkey, hds, hf, hcs⟩ =>
    readsGen_cons (expr_reads e he) hkey hds (expr_reads f hf) (genClauses_splits cs hcs)

theorem params_splits : (ps : List Param) → Param.AllSerializable ps → ∀ qs,
    Param.AllSerializable qs → ps.length = qs.length →
    Splits (params ps) (params qs) (Param.bareAll ps = Param.bareAll qs)
  | [], _, [], _, _ => Splits.nil.imp fun _ => rfl
  | ⟨name, _, e⟩ :: ps, hp, ⟨name', _, e'⟩ :: qs, hq, hlength => by
    refine ((((text_splits hp.1 hq.1).append fun _ => expr_reads e hp.2.1 e' hq.2.1).append
      fun _ => params_splits ps hp.2.2 qs hq.2.2 (by simpa using hlength)).cons _).imp
      fun h => ?_
    simp only [Param.bareAll, h]

end

/-! Conversely, serial forms do not show what `Expr.bare` leaves out. -/

@[simp] theorem decls_bare (ds : List Decl) : decls (ds.map Decl.bare) = decls ds := by
  simp only [decls, List.length_map, List.flatMap_map]
  rfl

@[simp] theorem declOption_bare (d : Option Decl) :
    declOption (d.map Decl.bare) = declOption d := by
  cases d <;> rfl

@[simp] theorem length_bareAll (es : List Expr) : (Expr.bareAll es).length = es.length := by
  induction es with
  | nil => rfl
  | cons e es ih => simp only [Expr.bareAll, List.length_cons, ih]

@[simp] theorem length_params_bareAll (ps : List Param) :
    (Param.bareAll ps).length = ps.length := by
  induction ps with
  | nil => rfl
  | cons p ps ih =>
    cases p
    simp only [Param.bareAll, List.length_cons, ih]

mutual

theorem expr_bare : (e : Expr) → expr e.bare = expr e
  | .absent | .nil _ | .blank _ | .old _ | .next _ | .retry _ | .value .. | .ident .. |
    .unquote .. => rfl
  | .string _ es | .sequence _ _ es | .map _ es => by simp [expr, exprs_bareAll es]
  | .not _ e | .loop _ e | .exit _ e | .each _ e | .ret _ e | .inline _ e => by
    simp [expr, expr_bare e]
  | .assign _ e f | .logic _ _ e f | .exitTest _ _ e f | .suspend _ e f => by
    simp [expr, expr_bare e, expr_bare f]
  | .call _ e es | .quote _ e es => by simp [expr, expr_bare e, exprs_bareAll es]
  | .constCall _ _ es => by simp [expr, exprs_bareAll es]
  | .resolve _ e _ | .bind _ _ _ _ e => by simp [expr, expr_bare e]
  | .cond _ cs e => by simp [expr, condCases_bareAll cs, expr_bare e]
  | .forIn _ _ _ _ e f g => by simp [expr, expr_bare e, expr_bare f, expr_bare g]
  | .block _ _ _ _ es hs => by simp [expr, exprs_bareAll es, handlers_bareAll hs]
  | .function _ ps _ _ e | .method _ _ ps _ e => by
    simp [expr, params_bareAll ps, expr_bare e]
  | .scoped _ _ es e => by simp [expr, exprs_bareAll es, expr_bare e]
  | .switch _ e es f => by simp [expr, expr_bare e, exprs_bareAll es, expr_bare f]
  | .select _ e cs f => by simp [expr, expr_bare e, selectClauses_bareAll cs, expr_bare f]
  | .generator _ e cs => by simp [expr, expr_bare e, genClauses_bareAll cs]

theorem exprs_bareAll : (es : List Expr) → exprs (Expr.bareAll es) = exprs es
  | [] => rfl
  | e :: es => by simp [exprs, expr_bare e, exprs_bareAll es]

theorem condCases_bareAll : (cs : List CondCase) → condCases (CondCase.bareAll cs) = condCases cs
  | [] => rfl
  | ⟨_, _, e, f⟩ :: cs => by
    simp [condCases, expr_bare e, expr_bare f, condCases_bareAll cs]

theorem handlers_bareAll : (hs : List Handler) → handlers (Handler.bareAll hs) = handlers hs
  | [] => rfl
  | ⟨_, _, es, e⟩ :: hs => by
    simp [handlers, exprs_bareAll es, expr_bare e, handlers_bareAll hs]

theorem selectClauses_bareAll :
    (cs : List SelectClause) → selectClauses (SelectClause.bareAll cs) = selectClauses cs
  | [] => rfl
  | ⟨_, _, es, e⟩ :: cs => by
    simp [selectClauses, exprs_bareAll es, expr_bare e, selectClauses_bareAll cs]

theorem genClauses_bareAll :
    (cs : List GenClause) → genClauses (GenClause.bareAll cs) = genClauses cs
  | [] => rfl
  | ⟨_, e, _, _, _, f⟩ :: cs => by
    simp [genClauses, expr_bare e, expr_bare f, genClauses_bareAll cs]

theorem params_bareAll : (ps : List Param) → params (Param.bareAll ps) = params ps
  | [] => rfl
  | ⟨_, _, e⟩ :: ps => by simp [params, expr_bare e, params_bareAll ps]

end

end Serial

namespace Expr

theorem serialize_bare (e : Expr) : e.bare.serialize = e.serialize := by
  rw [serialize, serialize, Serial.expr_bare]

/-- Serial forms tell serializable expressions apart, so that expressions have the same digest only
if they are the same program, or if their serial forms are a collision of the hash. -/
theorem serialize_eq_iff_bare_eq (a b : Expr) (ha : a.Serializable) (hb : b.Serializable) :
    (a.serialize = b.serialize ↔ a.bare = b.bare) ∧
      (a.digest = b.digest →
        a.bare = b.bare ∨
          a.serialize ≠ b.serialize ∧ Blake2b.hash a.serialize = Blake2b.hash b.serialize) := by
  have hiff : a.serialize = b.serialize ↔ a.bare = b.bare := by
    constructor
    · intro h
      have hexpr : Serial.expr a ++ [] = Serial.expr b ++ [] := by
        rw [List.append_nil, List.append_nil]
        exact (List.cons.inj h).2
      exact (Serial.expr_reads a ha b hb [] [] hexpr).1
    · intro h
      rw [← serialize_bare a, h, serialize_bare]
  refine ⟨hiff, fun hdigest => ?_⟩
  by_cases hsame : a.serialize = b.serialize
  · exact .inl (hiff.1 hsame)
  · exact .inr ⟨hsame, hdigest⟩

/-- The calls `f(g(x), y)` and `f(g(x, y))` consist of the same names in the same order. -/
theorem serialize_ne_of_regrouped_arguments :
    let name (c : UInt8) : Expr := .ident .nowhere [c]
    let call (f : Expr) (args : List Expr) : Expr := .call .nowhere f args
    (call (name 102) [call (name 103) [name 120], name 121]).serialize ≠
      (call (name 102) [call (name 103) [name 120, name 121]]).serialize := by
  intro name call h
  have hbare := (serialize_eq_iff_bare_eq _ _
    (by simp [name, call, Expr.Serializable, Expr.AllSerializable, Serial.IsShort,
      Serial.lengthLimit])
    (by simp [name, call, Expr.Serializable, Expr.AllSerializable, Serial.IsShort,
      Serial.lengthLimit])).1.1 h
  simp [name, call] at hbare

end Expr

end StagedScript
