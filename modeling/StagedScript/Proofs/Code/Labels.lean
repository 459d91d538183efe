import StagedScript.Proofs.Code.Layout
import StagedScript.Proofs.Code.Sites

/-!
# Labels and links

What the finished code has to be can be told from the requests to a builder alone: `Builder.fixings`
are the addresses that they fix labels to, and `Builder.Request.resolved?` is the instruction that a
request puts into the code.
-/

namespace StagedScript

/-- Following links from an address leads to another one. -/
inductive Code.Leads (c : Code) : Int → Int → Prop where
  | here (a : Int) : Leads c a a
  | link {a b : Int} {i : Inst} (found : c.at? a = some i) (op : i.op = .link)
      (rest : Leads c i.target b) : Leads c a b

namespace Builder

/-! ### Requests -/

inductive Request where
  | emit (i : Inst)
  | emitJump (i : Inst) (l : Label)
  | emitSwitch (line : Int) (labels : List Label)
  | newLabel
  | bind (l : Label)
  | fix (l : Label) (address : Int)

namespace Request

def labels : Request → List Label
  | .emitJump _ l => [l]
  | .emitSwitch _ ls => ls
  | _ => []

def inst? : Request → Option Inst
  | .emit i | .emitJump i _ => some i
  | .emitSwitch line ls => some { Inst.plain line .switch with table := ls.map fun _ => 0 }
  | _ => none

def resolved? (address : Label → Int) : Request → Option Inst
  | .emit i => some i
  | .emitJump i l => some { i with target := address l }
  | .emitSwitch line ls => some { Inst.plain line .switch with table := ls.map address }
  | _ => none

def sites (n : Nat) : Request → List Site
  | .emitJump _ l => [⟨n, none, l⟩]
  | .emitSwitch _ ls => tableSites n 0 ls
  | _ => []

/-- The label that is fixed and its address, when `n` instructions have been emitted. -/
def fixing? (size n : Nat) : Request → Option (Label × Int)
  | .bind l => some (l, placeOf size n)
  | .fix l address => some (l, address)
  | _ => none

end Request

/-- Performs a request.  Refused are labels that have not been made, and to fix a label again. -/
def perform (b : Builder) (r : Request) : Option Builder :=
  if (r.labels ++ (r.fixing? 0 0).toList.map Prod.fst).all (· < b.aims.size) then
    match r with
    | .emit i => some (b.emit i)
    | .emitJump i l => some (b.emitJump i l)
    | .emitSwitch line ls => some (b.emitSwitch line ls)
    | .newLabel => some b.newLabel.2
    | .bind l => b.bind l
    | .fix l address => b.aim l (.address address)
  else none

def performAll (b : Builder) : List Request → Option Builder
  | [] => some b
  | r :: rest => (b.perform r).bind fun b => b.performAll rest

def emitted (requests : List Request) : Nat := (requests.filterMap Request.inst?).length

/-- The labels that requests fix and their addresses, when `n` instructions have been emitted. -/
def fixings (size : Nat) : (n : Nat) → List Request → List (Label × Int)
  | _, [] => []
  | n, r :: rest => (r.fixing? size n).toList ++ fixings size (n + emitted [r]) rest

def sitesFrom : (n : Nat) → List Request → List Site
  | _, [] => []
  | n, r :: rest => r.sites n ++ sitesFrom (n + emitted [r]) rest

def IsFixedTo (b : Builder) (l : Label) (a : Int) : Prop := b.isFixed l = true ∧ b.target l = a

variable {b b' : Builder} {r : Request} {requests : List Request}

/-- What requests do, given how many instructions are emitted and what is fixed before. -/
structure Performs (b : Builder) (requests : List Request) (b' : Builder) : Prop where
  blockSize : b'.blockSize = b.blockSize
  insts : b'.insts.toList = b.insts.toList ++ requests.filterMap Request.inst?
  sites : b'.sites.toList = b.sites.toList ++ sitesFrom b.insts.size requests
  aims : b.aims.size ≤ b'.aims.size
  known : ∀ r ∈ requests, ∀ l ∈ r.labels, l < b'.aims.size
  fixed : ∀ l a, b'.IsFixedTo l a ↔
    b.IsFixedTo l a ∨ (l, a) ∈ fixings b.blockSize b.insts.size requests
  fresh : ∀ e ∈ fixings b.blockSize b.insts.size requests, b.isFixed e.1 = false
  once : ((fixings b.blockSize b.insts.size requests).map Prod.fst).Nodup

variable {n : Nat} {l : Label}

theorem isFixedTo_aim {a : Aim} (h : b.aim l a = some b') (hl : l < b.aims.size) :
    b.isFixed l = false ∧
      ∀ l' x, b'.IsFixedTo l' x ↔ b.IsFixedTo l' x ∨ (l', x) = (l, b.resolveAim a) := by
  unfold aim at h
  split at h
  · cases h
  · rename_i hfree
    cases h
    refine ⟨by simpa using hfree, fun l' x => ?_⟩
    have hfree' : b.aims.getD l none = none := by simpa [isFixed] using hfree
    have hresolve : ∀ a', resolveAim { b with aims := b.aims.setIfInBounds l (some a) } a' =
        b.resolveAim a' := fun a' => by cases a' <;> rfl
    by_cases hne : l' = l
    · subst hne
      simp only [IsFixedTo, isFixed, target, hfree']
      simp [Array.getD_eq_getD_getElem?, hl, hresolve, eq_comm]
    · have hget : (b.aims.setIfInBounds l (some a)).getD l' none = b.aims.getD l' none := by
        rw [Array.getD_eq_getD_getElem?, Array.getD_eq_getD_getElem?,
          Array.getElem?_setIfInBounds_ne (Ne.symm hne)]
      simp only [IsFixedTo, isFixed, target, hget, hresolve, Prod.mk.injEq, hne, false_and,
        or_false]

theorem isFixedTo_newLabel (l : Label) (a : Int) :
    b.newLabel.2.IsFixedTo l a ↔ b.IsFixedTo l a := by
  have hget : (b.aims.push none).getD l none = b.aims.getD l none := by
    rw [Array.getD_eq_getD_getElem?, Array.getD_eq_getD_getElem?, Array.getElem?_push]
    split
    next h => simp [h]
    next => rfl
  simp only [IsFixedTo, isFixed, target, newLabel, hget]
  rfl

theorem fixings_singleton (size n : Nat) (r : Request) :
    fixings size n [r] = (r.fixing? size n).toList := by
  simp [fixings]

theorem Performs.of_keeps (hlabels : ∀ l ∈ r.labels, l < b.aims.size)
    (hsize : b'.blockSize = b.blockSize)
    (hinsts : b'.insts.toList = b.insts.toList ++ r.inst?.toList)
    (hsites : b'.sites.toList = b.sites.toList ++ r.sites b.insts.size)
    (haims : b.aims.size ≤ b'.aims.size) (hfixed : ∀ l a, b'.IsFixedTo l a ↔ b.IsFixedTo l a)
    (hnone : r.fixing? b.blockSize b.insts.size = none) : b.Performs [r] b' := by
  have hnil : fixings b.blockSize b.insts.size [r] = [] := by
    rw [fixings_singleton, hnone, Option.toList_none]
  refine ⟨hsize, ?_, ?_, haims, ?_, ?_, ?_, ?_⟩
  · rw [hinsts, List.filterMap_cons, List.filterMap_nil]
    cases r.inst? <;> rfl
  · rw [hsites, sitesFrom, sitesFrom, List.append_nil]
  · intro r' hr l hl
    rw [List.mem_singleton.1 hr] at hl
    exact Nat.lt_of_lt_of_le (hlabels l hl) haims
  · intro l a
    simp [hfixed, hnil]
  · simp [hnil]
  · simp [hnil]

theorem Performs.of_aim {a : Aim} (haim : b.aim l a = some b') (hinst : r.inst? = none)
    (hlabels : r.labels = []) (hsites : r.sites b.insts.size = [])
    (hfixing : r.fixing? b.blockSize b.insts.size = some (l, b.resolveAim a))
    (hl : l < b.aims.size) : b.Performs [r] b' := by
  obtain ⟨hfree, hfixed⟩ := isFixedTo_aim haim hl
  have hone : fixings b.blockSize b.insts.size [r] = [(l, b.resolveAim a)] := by
    rw [fixings_singleton, hfixing, Option.toList_some]
  have hsame : b'.blockSize = b.blockSize ∧ b'.insts = b.insts ∧ b'.sites = b.sites ∧
      b'.aims.size = b.aims.size := by
    unfold aim at haim
    split at haim
    · cases haim
    · cases haim
      simp
  obtain ⟨hsize, hinsts, hsites', haims⟩ := hsame
  refine ⟨hsize, ?_, ?_, haims.ge, ?_, ?_, ?_, ?_⟩
  · simp [hinsts, hinst]
  · simp [hsites', sitesFrom, hsites]
  · simp [hlabels]
  · intro l' x
    rw [hfixed, hone, List.mem_singleton]
  · simpa [hone] using hfree
  · simp [hone]

theorem perform_spec (h : b.perform r = some b') : b.Performs [r] b' := by
  unfold perform at h
  split at h
  case isFalse => cases h
  case isTrue hknown =>
    simp only [List.all_append, Bool.and_eq_true, List.all_eq_true, decide_eq_true_eq] at hknown
    obtain ⟨hlabels, hfixes⟩ := hknown
    cases r with
    | emit i =>
      cases h
      exact .of_keeps hlabels rfl (by simp [emit, Request.inst?]) (by simp [emit, Request.sites])
        (Nat.le_refl _) (fun _ _ => Iff.rfl) rfl
    | emitJump i l =>
      cases h
      exact .of_keeps hlabels rfl (by simp [emitJump, emit, Request.inst?])
        (by simp [emitJump, emit, Request.sites]) (Nat.le_refl _) (fun _ _ => Iff.rfl) rfl
    | emitSwitch line ls =>
      cases h
      exact .of_keeps hlabels rfl (by simp [emitSwitch, emit, Request.inst?])
        (by simp [emitSwitch, emit, Request.sites]) (Nat.le_refl _) (fun _ _ => Iff.rfl) rfl
    | newLabel =>
      cases h
      exact .of_keeps hlabels rfl (by simp [newLabel, Request.inst?])
        (by simp [newLabel, Request.sites]) (by simp [newLabel]) isFixedTo_newLabel rfl
    | bind l => exact .of_aim h rfl rfl rfl rfl (hfixes l (by simp [Request.fixing?]))
    | fix l address => exact .of_aim h rfl rfl rfl rfl (hfixes l (by simp [Request.fixing?]))

theorem Performs.trans {b'' : Builder} {rest : List Request} (h : b.Performs [r] b')
    (h' : b'.Performs rest b'') : b.Performs (r :: rest) b'' := by
  have hsize : b'.insts.size = b.insts.size + emitted [r] := by
    rw [← Array.length_toList, h.insts, List.length_append, Array.length_toList]
    rfl
  have hfixings : fixings b.blockSize b.insts.size (r :: rest) =
      fixings b.blockSize b.insts.size [r] ++ fixings b'.blockSize b'.insts.size rest := by
    rw [fixings_singleton, h.blockSize, hsize, fixings]
  refine ⟨h'.blockSize.trans h.blockSize, ?_, ?_, h.aims.trans h'.aims, ?_, ?_, ?_, ?_⟩
  · rw [h'.insts, h.insts, List.append_assoc, ← List.filterMap_append, List.singleton_append]
  · rw [h'.sites, h.sites, hsize, List.append_assoc, sitesFrom, sitesFrom, List.append_nil,
      sitesFrom]
  · intro r' hr l hl
    rcases List.mem_cons.1 hr with rfl | hr
    · exact Nat.lt_of_lt_of_le (h.known r' List.mem_cons_self l hl) h'.aims
    · exact h'.known r' hr l hl
  · intro l a
    rw [h'.fixed, h.fixed, hfixings, List.mem_append, or_assoc]
  · intro e he
    rw [hfixings, List.mem_append] at he
    rcases he with he | he
    · exact h.fresh e he
    · have hlater := h'.fresh e he
      -- a label that is fixed before the first request still is after it
      by_contra hfixed
      have hearlier : b'.IsFixedTo e.1 (b.target e.1) :=
        (h.fixed _ _).2 (.inl ⟨by simpa using hfixed, rfl⟩)
      rw [hearlier.1] at hlater
      cases hlater
  · rw [hfixings, List.map_append]
    refine List.nodup_append.2 ⟨h.once, h'.once, ?_⟩
    rintro l hl _ hl' rfl
    obtain ⟨⟨l, a⟩, he, rfl⟩ := List.mem_map.1 hl
    obtain ⟨e', he', heq⟩ := List.mem_map.1 hl'
    have hfixed := ((h.fixed l a).2 (.inr he)).1
    have hfresh := h'.fresh e' he'
    rw [heq, hfixed] at hfresh
    cases hfresh

theorem performAll_spec (h : b.performAll requests = some b') : b.Performs requests b' := by
  induction requests generalizing b with
  | nil =>
    cases h
    exact ⟨rfl, by simp, by simp [sitesFrom], Nat.le_refl _, nofun, by simp [fixings], nofun,
      List.nodup_nil⟩
  | cons r rest ih =>
    obtain ⟨b₁, hstep, hrest⟩ := Option.bind_eq_some_iff.1 h
    exact (perform_spec hstep).trans (ih hrest)

/-! ### Instructions with their targets -/

theorem le_of_mem_sitesFrom {s : Site} (hs : s ∈ sitesFrom n requests) : n ≤ s.inst := by
  induction requests generalizing n with
  | nil => cases hs
  | cons r rest ih =>
    rcases List.mem_append.1 hs with hs | hs
    · cases r with
      | emitJump i l =>
        cases List.mem_singleton.1 hs
        exact Nat.le_refl _
      | emitSwitch line ls => exact (inst_of_mem_tableSites n 0 ls s hs).ge
      | _ => cases hs
    · exact Nat.le_trans (Nat.le_add_right _ _) (ih hs)

theorem inst_of_mem_sites {s : Site} (hs : s ∈ r.sites n) : s.inst = n := by
  cases r with
  | emitJump i l =>
    cases List.mem_singleton.1 hs
    rfl
  | emitSwitch line ls => exact inst_of_mem_tableSites n 0 ls s hs
  | _ => cases hs

theorem mem_labels_iff : (∃ s ∈ r.sites n, s.label = l) ↔ l ∈ r.labels := by
  cases r with
  | emitJump i l' => simp [Request.sites, Request.labels, eq_comm]
  | emitSwitch line ls =>
    rw [← List.mem_map (f := Site.label), Request.sites, map_label_tableSites, Request.labels]
  | _ => simp [Request.sites, Request.labels]

theorem mem_sitesFrom_iff :
    (∃ s ∈ sitesFrom n requests, s.label = l) ↔ ∃ r ∈ requests, l ∈ r.labels := by
  induction requests generalizing n with
  | nil => simp [sitesFrom]
  | cons r rest ih =>
    simp only [sitesFrom, List.mem_append, or_and_right, exists_or, mem_labels_iff, ih,
      List.mem_cons, exists_eq_left]

theorem length_filterMap_resolved? (address : Label → Int) :
    (requests.filterMap (Request.resolved? address)).length = emitted requests := by
  induction requests with
  | nil => rfl
  | cons r rest ih =>
    cases r with
    | emit | emitJump | emitSwitch => exact congrArg (· + 1) ih
    | newLabel | bind | fix => exact ih

theorem setTargets_tableSites (b : Builder) (i : Inst) (k entry : Nat) (ls : List Label) :
    b.setTargets i (tableSites k entry ls) =
      { i with table := (b.setTargets i (tableSites k entry ls)).table } := by
  induction ls generalizing i entry with
  | nil =>
    cases i
    rfl
  | cons l ls ih => exact ih (setTarget i (some entry) (b.target l)) (entry + 1)

theorem setTargets_sites (b : Builder) {i : Inst} (hi : r.inst? = some i) :
    r.resolved? b.target = some (b.setTargets i (r.sites n)) := by
  cases r with
  | emit i' =>
    cases hi
    rfl
  | emitJump i' l =>
    cases hi
    rfl
  | emitSwitch line ls =>
    cases hi
    rw [Request.sites, setTargets_tableSites, table_setTargets b (by simp)]
    simp [Request.resolved?]
  | _ => cases hi

theorem resolved_sitesFrom (b : Builder) (n k : Nat) :
    ((requests.filterMap Request.inst?)[k]?).map (fun i =>
      b.setTargets i ((sitesFrom n requests).filter fun s => s.inst = n + k)) =
      (requests.filterMap (Request.resolved? b.target))[k]? := by
  induction requests generalizing n k with
  | nil => rfl
  | cons r rest ih =>
    cases hi : r.inst? with
    | none =>
      have hsites : r.sites n = [] := by cases r <;> first | rfl | cases hi
      have hresolved : r.resolved? b.target = none := by cases r <;> first | rfl | cases hi
      have hemitted : emitted [r] = 0 := by simp [emitted, hi]
      rw [List.filterMap_cons_none hi, List.filterMap_cons_none hresolved, sitesFrom, hsites,
        hemitted]
      exact ih n k
    | some i =>
      have hemitted : emitted [r] = 1 := by simp [emitted, hi]
      rw [List.filterMap_cons_some hi, List.filterMap_cons_some (setTargets_sites b (n := n) hi),
        sitesFrom, hemitted, List.filter_append]
      cases k with
      | zero =>
        -- the sites of the instruction are its own, and those of later ones lie beyond it
        rw [List.filter_eq_self.2 fun s hs => by simpa using inst_of_mem_sites hs,
          List.filter_eq_nil_iff.2 fun s hs => ?_, List.append_nil]
        · rfl
        · have := le_of_mem_sitesFrom hs
          simp
          omega
      | succ k =>
        rw [List.filter_eq_nil_iff.2 fun s hs => ?_, List.nil_append]
        · simpa [Nat.add_assoc, Nat.add_comm 1 k] using ih (n + 1) k
        · have := inst_of_mem_sites hs
          simp
          omega

/-! ### Blocks -/

variable {size : Nat} {insts : List Inst}

theorem layout_ne_nil (size block used : Nat) (insts : List Inst) :
    layout size block used insts ≠ [] := by
  cases insts with
  | nil => exact List.cons_ne_nil _ _
  | cons i rest =>
    have hfirst : ∀ blocks, consFirst i blocks ≠ [] := fun blocks => by
      cases blocks <;> exact List.cons_ne_nil _ _
    unfold layout
    split
    · exact List.cons_ne_nil _ _
    · exact hfirst _

/-- Every block of a layout but the last one is full and ends with a link to the next one. -/
theorem layout_getElem?_eq (hsize : 2 ≤ size) (block j : Nat) {is : List Inst}
    (h : (layout size block 0 insts)[j]? = some is) :
    (j + 1 < (layout size block 0 insts).length ∧ is.length = size ∧ ∃ line,
      is = (insts.drop (j * (size - 1))).take (size - 1) ++ [link size line (block + j + 1)]) ∨
    j + 1 = (layout size block 0 insts).length ∧ is.length < size ∧
      is = insts.drop (j * (size - 1)) := by
  induction j generalizing block insts with
  | zero =>
    by_cases hone : insts.length ≤ size - 1
    · rw [layout_of_le (by omega)] at h ⊢
      cases h
      exact .inr ⟨rfl, by omega, by simp⟩
    · obtain ⟨line, hlayout⟩ := layout_of_gt block 0 hsize (by omega)
        (show size - 1 < 0 + insts.length by omega)
      have hpos := List.length_pos_iff.2
        (layout_ne_nil size (block + 1) 0 (insts.drop (size - 1 - 0)))
      rw [hlayout] at h ⊢
      cases h
      refine .inl ⟨?_, ?_, line, by simp⟩
      · rw [List.length_cons]
        omega
      · simp
        omega
  | succ j ih =>
    by_cases hone : insts.length ≤ size - 1
    · rw [layout_of_le (by omega)] at h
      cases h
    · obtain ⟨line, hlayout⟩ := layout_of_gt block 0 hsize (by omega)
        (show size - 1 < 0 + insts.length by omega)
      rw [hlayout, List.getElem?_cons_succ, Nat.sub_zero] at h
      have hdrop : (insts.drop (size - 1)).drop (j * (size - 1)) =
          insts.drop ((j + 1) * (size - 1)) := by
        rw [List.drop_drop, Nat.succ_mul, Nat.add_comm]
      rw [hlayout, List.length_cons, Nat.sub_zero]
      rcases ih (block + 1) h with ⟨hlt, hlen, line', heq⟩ | ⟨hlast, hlen, heq⟩
      · refine .inl ⟨by omega, hlen, line', ?_⟩
        rw [heq, hdrop, show block + 1 + j + 1 = block + (j + 1) + 1 by omega]
      · exact .inr ⟨by omega, hlen, by rw [heq, hdrop]⟩

/-- From the place of an instruction links lead to its address. -/
theorem leads_placeOf (hsize : 2 ≤ size) (hn : n < insts.length) :
    (codeOf size insts).Leads (placeOf size n) (addressOf size n) := by
  have hindex := indexAt_placeOf hsize n
  obtain ⟨line, hat⟩ := codeOf_at? hsize (hindex ▸ hn)
  split at hat
  next hlt =>
    have heq := addressOf_indexAt hlt
    rw [hindex] at heq
    rw [heq]
    exact .here _
  next hge =>
    have hstart : (placeOf size n / size + 1) * size % size < size - 1 := by
      rw [Nat.mul_mod_left]
      omega
    have haddress := addressOf_indexAt hstart
    rw [indexAt_link hsize hge, hindex] at haddress
    refine .link hat rfl ?_
    rw [haddress]
    rw [link, Int.natCast_mul]
    exact .here _

/-- The instructions of code that are not links. -/
theorem codeOf_at?_eq_some_iff (hsize : 2 ≤ size) {a : Int} {i : Inst} (hi : i.op ≠ .link) :
    (codeOf size insts).at? a = some i ↔ ∃ n, a = addressOf size n ∧ insts[n]? = some i := by
  constructor
  · intro hat
    unfold Code.at? codeOf at hat
    dsimp only at hat
    split at hat
    · cases hat
    · rename_i hbounds
      simp only [Bool.or_eq_true, decide_eq_true_eq, not_or] at hbounds
      obtain ⟨address, rfl⟩ := Int.eq_ofNat_of_zero_le (Int.not_lt.1 hbounds.1)
      obtain ⟨is, hblock, hr⟩ := Option.bind_eq_some_iff.1 hat
      simp only [Int.toNat_natCast] at hblock hr
      have hplace : address % size < size - 1 ∧ insts[indexAt size address]? = some i := by
        rcases layout_getElem?_eq hsize 0 _ hblock with ⟨-, hlength, line, rfl⟩ | ⟨-, hlength, rfl⟩
        · rw [List.getElem?_append] at hr
          split at hr
          · rename_i hlt
            rw [List.getElem?_take_of_lt (by simp at hlt; omega), List.getElem?_drop] at hr
            exact ⟨by simp at hlt; omega, hr⟩
          · -- the last instruction of a full block is a link
            have hlink := List.mem_of_getElem? hr
            rw [List.mem_singleton.1 hlink] at hi
            exact absurd rfl hi
        · have hlt := (List.getElem?_eq_some_iff.1 hr).1
          rw [List.getElem?_drop] at hr
          exact ⟨by omega, hr⟩
      exact ⟨indexAt size address, by rw [addressOf_indexAt hplace.1], hplace.2⟩
  · rintro ⟨n, rfl, hn⟩
    have hlt : n < insts.length := (List.getElem?_eq_some_iff.1 hn).1
    have hindex := indexAt_addressOf hsize n
    obtain ⟨line, hat⟩ := codeOf_at? hsize (hindex ▸ hlt)
    rw [hat, if_pos (addressOf_mod_lt hsize n), hindex, hn]

/-! ### Finished code -/

theorem finish_eq_error_iff : (∃ u, b.finish = .error u) ↔
    ∃ l < b.aims.size, b.isFixed l = false ∧ ∃ s ∈ b.sites.toList, s.label = l := by
  have hunresolved : ∀ l, (b.unresolved? l).isSome ↔
      b.isFixed l = false ∧ ∃ s ∈ b.sites.toList, s.label = l := by
    intro l
    unfold unresolved?
    split
    next hfixed => simp [hfixed]
    next hfree =>
      rw [Bool.not_eq_true] at hfree
      split
      next hnil => simpa [hfree] using hnil
      next s rest hcons =>
        have hs : s ∈ b.sites.toList.filter fun s => s.label = l := by simp [hcons]
        rw [List.mem_filter] at hs
        simpa [hfree] using ⟨s, by simpa using hs.1, by simpa using hs.2⟩
  unfold finish
  split
  next u hu =>
    obtain ⟨l, hl, hsome⟩ := List.exists_of_findSome?_eq_some hu
    exact ⟨fun _ => ⟨l, List.mem_range.1 hl, (hunresolved l).1 (by simp [hsome])⟩,
      fun _ => ⟨u, rfl⟩⟩
  next hnone =>
    constructor
    · rintro ⟨u, hu⟩
      cases hu
    · rintro ⟨l, hl, hfree⟩
      have := List.findSome?_eq_none_iff.1 hnone l (List.mem_range.2 hl)
      simpa [this] using (hunresolved l).2 hfree

theorem finish_eq_ok {code : Code} (h : b.finish = .ok code) :
    code = codeOf b.blockSize b.resolved.toList := by
  unfold finish at h
  split at h
  · cases h
  · exact (Except.ok.inj h).symm

theorem fixings_append (size n : Nat) (pre rest : List Request) :
    fixings size n (pre ++ rest) = fixings size n pre ++ fixings size (n + emitted pre) rest := by
  induction pre generalizing n with
  | nil => rfl
  | cons r pre ih =>
    have hcount : emitted (r :: pre) = emitted [r] + emitted pre := by
      simp only [emitted, List.filterMap_cons, List.filterMap_nil]
      cases r.inst? <;> simp [Nat.add_comm]
    rw [List.cons_append, fixings, fixings, ih, hcount, List.append_assoc, Nat.add_assoc]

/-- A label is fixed to an address that a request gives, or to the place of an instruction. -/
theorem mem_fixings {size : Nat} {a : Int} (h : (l, a) ∈ fixings size n requests) :
    .fix l a ∈ requests ∨ ∃ k, a = placeOf size k := by
  induction requests generalizing n with
  | nil => cases h
  | cons r rest ih =>
    rcases List.mem_append.1 h with h | h
    · cases r with
      | bind l' =>
        cases Option.mem_toList.1 h
        exact .inr ⟨n, rfl⟩
      | fix l' a' =>
        cases Option.mem_toList.1 h
        exact .inl List.mem_cons_self
      | _ => cases h
    · exact (ih h).imp_left (List.mem_cons_of_mem _)

section

variable {blockSize : Int} (hrun : (empty blockSize).performAll requests = some b)

include hrun

theorem two_le_blockSize : 2 ≤ b.blockSize := by
  rw [(performAll_spec hrun).blockSize, empty]
  dsimp only
  split
  · decide
  · rename_i h
    simp only [minBlockSize] at h
    omega

theorem isFixedTo_iff (l : Label) (a : Int) :
    b.IsFixedTo l a ↔ (l, a) ∈ fixings b.blockSize 0 requests := by
  have hspec := performAll_spec hrun
  have hnone : ¬ (empty blockSize).IsFixedTo l a := by simp [IsFixedTo, isFixed, empty]
  rw [hspec.fixed, or_iff_right hnone, hspec.blockSize]
  rfl

theorem resolved_eq : b.resolved.toList = requests.filterMap (Request.resolved? b.target) := by
  have hspec := performAll_spec hrun
  have hinsts : b.insts.toList = requests.filterMap Request.inst? := hspec.insts
  have hsites : b.sites.toList = sitesFrom 0 requests := hspec.sites
  apply List.ext_getElem?
  intro k
  rw [← resolved_sitesFrom b 0 k, Array.getElem?_toList, resolved_getElem?, ← hinsts,
    Array.getElem?_toList, sitesOf, hsites, Nat.zero_add]

theorem finish_eq_error_iff_of_performAll : (∃ u, b.finish = .error u) ↔
    ∃ r ∈ requests, ∃ l ∈ r.labels, ∀ a, (l, a) ∉ fixings b.blockSize 0 requests := by
  have hspec := performAll_spec hrun
  have hsites : b.sites.toList = sitesFrom 0 requests := hspec.sites
  rw [finish_eq_error_iff]
  simp only [hsites, mem_sitesFrom_iff]
  constructor
  · rintro ⟨l, -, hfree, r, hr, hl⟩
    refine ⟨r, hr, l, hl, fun a ha => ?_⟩
    rw [← isFixedTo_iff hrun, IsFixedTo, hfree] at ha
    cases ha.1
  · rintro ⟨r, hr, l, hl, hnever⟩
    refine ⟨l, hspec.known r hr l hl, ?_, r, hr, hl⟩
    by_contra hfixed
    exact hnever _ ((isFixedTo_iff hrun l _).1 ⟨by simpa using hfixed, rfl⟩)

end

theorem op_ne_link_of_resolved (target : Label → Int)
    (hlinks : ∀ r ∈ requests, ∀ i, r.inst? = some i → i.op ≠ .link) :
    ∀ i ∈ requests.filterMap (Request.resolved? target), i.op ≠ .link := by
  intro i hi
  obtain ⟨r, hr, hri⟩ := List.mem_filterMap.1 hi
  cases r with
  | emit i' =>
    cases hri
    exact hlinks _ hr _ rfl
  | emitJump i' l =>
    cases hri
    exact hlinks _ hr i' rfl
  | emitSwitch line ls =>
    cases hri
    exact Opcode.noConfusion
  | _ => cases hri

end Builder

end StagedScript
