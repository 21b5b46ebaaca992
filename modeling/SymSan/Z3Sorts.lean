import SymSan.TermSorts
import SymSan.Z3Parser

/-!
# Sorts of the labels

The translation of `Z3AstParser::serialize` with sorts in place of expressions. It
throws exactly where the translation throws and collects the same dependencies, so
whether a label is translated, to which sort and over which bytes can be read off the
table and the labels that have a recorded content.
-/

namespace Z3Sorts

open LabelTable BitTerms Z3Parser TermSorts
open Build (lift)

/-! ## Computations on expressions and on sorts -/

/-- The second computation follows the first one through `f`. -/
def Maps {α β : Type} (f : α → β) (x : Build α) (y : Build β) : Prop :=
  ∀ d, y d = ((x d).1.map f, (x d).2)

section Maps

variable {α β γ δ : Type} {f : α → β} {g : γ → δ}

lemma Maps.pure (a : α) : Maps f (Pure.pure a) (Pure.pure (f a)) := fun _ => rfl

lemma Maps.throw : Maps f (Build.throw : Build α) Build.throw := fun _ => rfl

lemma Maps.insert (ds : Deps) : Maps id (Build.insert ds) (Build.insert ds) := fun _ => rfl

lemma Maps.lift {x : Option α} {y : Option β} (same : x.map f = y) :
    Maps f (lift x) (lift y) := by
  intro d
  rw [← same]
  rfl

lemma Maps.liftSame (x : Option α) : Maps id (Build.lift x) (Build.lift x) :=
  .lift Option.map_id_apply

lemma Maps.bind {x : Build α} {y : Build β} {k : α → Build γ} {k' : β → Build δ}
    (first : Maps f x y) (rest : ∀ a, Maps g (k a) (k' (f a))) : Maps g (x >>= k) (y >>= k') := by
  intro d
  change Build.bind y k' d = ((Build.bind x k d).1.map g, (Build.bind x k d).2)
  simp only [Build.bind, first d]
  cases x d with
  | mk made d1 =>
    cases made with
    | none => rfl
    | some a => exact rest a d1

lemma Maps.ite {c : Prop} [Decidable c] {x x' : Build α} {y y' : Build β} (yes : Maps f x y)
    (no : Maps f x' y') : Maps f (if c then x else x') (if c then y else y') := by
  by_cases h : c
  · rw [if_pos h, if_pos h]
    exact yes
  · rw [if_neg h, if_neg h]
    exact no

end Maps

/-! ## One label -/

/-- The sort and the dependencies of a cached label. -/
abbrev SortLookup := Nat → Option (Srt × Deps)

def cachedSort (look : SortLookup) (l : Nat) : Build Srt :=
  match look l with
  | none => Build.throw
  | some (s, ds) => do
    Build.insert ds
    return s

abbrev MadeSort := Option (Option Srt)

def overArith : Srt → Srt → MadeSort
  | .bv w, .bv w' => (arith (.bv w) (.bv w')).map some
  | _, _ => some none

def overOrder : Srt → Srt → MadeSort
  | .bv w, .bv w' => (order (.bv w) (.bv w')).map some
  | _, _ => some none

def overNeg : Srt → MadeSort
  | .bv w => (neg (.bv w)).map some
  | .bool => some none

def overBits : Srt → Srt → MadeSort
  | .bool, .bool => (logic .bool .bool).map some
  | a, b => (arith a b).map some

def getCmd (lhs rhs : Srt) : Predicate → MadeSort
  | .bveq | .bvneq => (equal lhs rhs).map some
  | .bvugt | .bvuge | .bvult | .bvule => (order lhs rhs).map some
  | .bvsgt | .bvsge | .bvslt | .bvsle => overOrder lhs rhs
  | .other _ => none

/-- A memory comparison reads a recorded content of less than 256 bytes. -/
def readConcrete (known : Bool) (size : Nat) : Option Srt :=
  if known then if 256 ≤ size then none else some (.bv (8 * (size - 1 + 1))) else none

def fixSize (op : Operator) (size : Nat) : Srt → Option Srt
  | .bool => some .bool
  | .bv w =>
    if op = .concat then some (.bv w)
    else if size < w % 256 then extract (size - 1) 0 (.bv w)
    else if w % 256 < size then extend (w + (size - w % 256)) (.bv w)
    else some (.bv w)

def operand (look : SortLookup) (r : LabelInfo) (label size : Nat) : Build Srt := do
  let value ← lift (num size)
  if 1 ≤ label then
    let s ← cachedSort look label
    lift (fixSize r.op size s)
  else if r.size = 1 then return .bool
  else return value

def common (r : LabelInfo) (a b : Srt) : MadeSort :=
  match r.op with
  | .and | .or => if r.size ≠ 1 then overBits a b else (logic a b).map some
  | .xor => overBits a b
  | .shl | .lshr | .ashr | .udiv | .urem | .srem => (arith a b).map some
  | .add | .sub | .mul | .sdiv => overArith a b
  | .icmp p => getCmd a b p
  | .concat => (concat b a).map some
  | _ => none

/-- The sort of the expression for label `l`, or null. -/
def sortLabel (p : Parser) (look : SortLookup) (known : Bool) (l : Nat) : Build (Option Srt) := do
  let r ← lift (p.getLabelInfo l)
  match r.op with
  | .input =>
    Build.insert {(r.op2 % 2 ^ 32, r.op1 % 2 ^ 32)}
    return some (.bv 8)
  | .load =>
    let first ← lift (p.getLabelInfo r.l1)
    Build.insert (loadDeps (first.op2 % 2 ^ 32) (first.op1 % 2 ^ 32) (r.l2 - 1))
    return some (.bv (8 * (r.l2 - 1 + 1)))
  | .zext =>
    let base ← cachedSort look r.l1
    lift ((extend r.size (.bv base.width)).map some)
  | .sext =>
    let base ← cachedSort look r.l1
    lift ((extend r.size base).map some)
  | .trunc =>
    let base ← cachedSort look r.l1
    lift ((extract ((r.size + 2 ^ 32 - 1) % 2 ^ 32) 0 base).map some)
  | .intToPtr =>
    let s ← cachedSort look r.l1
    return some s
  | .extract =>
    let base ← cachedSort look r.l1
    lift ((extract ((r.op2 + r.size + 2 ^ 32 - 1) % 2 ^ 32)
      (r.op2 % 2 ^ 32) base).map some)
  | .not =>
    if r.l2 = 0 ∨ r.size ≠ 1 then Build.throw
    else
      let s ← cachedSort look r.l2
      lift ((lnot s).map some)
  | .neg =>
    if r.l2 = 0 then Build.throw
    else
      let s ← cachedSort look r.l2
      lift (overNeg s)
  | .fmemcmp =>
    let a ← if 1 ≤ r.l1 then cachedSort look r.l1 else lift (readConcrete known r.size)
    if r.l2 < 1 then Build.throw
    else
      let b ← cachedSort look r.l2
      lift ((equal a b).map fun _ => some (.bv 32))
  | .fsize =>
    let base ← lift (num r.size)
    if r.op1 ≠ 0 then
      let offset ← lift (num r.size)
      lift (overArith base offset)
    else return some base
  | .fatoi =>
    let src ← lift (p.getLabelInfo r.l2)
    let _ ← lift (p.getLabelInfo src.l1)
    lift ((num r.size).map some)
  | .alloca => return none
  | .free => return none
  | _ =>
    let size1 ← lift (constSize p r r.l1 r.l2 (r.size % 256))
    let a ← operand look r r.l1 size1
    let size2 ← lift (constSize p r r.l2 r.l1 size1)
    let b ← operand look r r.l2 size2
    lift (common r a b)

/-! ## The sorts of expressions -/

section Translate

variable {p : Parser} {look : Lookup}

def sortsOf (look : Lookup) : SortLookup := fun k => (look k).map fun e => (e.1.sort, e.2)

lemma getCachedExpr_maps (l : Nat) :
    Maps (·.sort) (getCachedExpr look l) (cachedSort (sortsOf look) l) := by
  simp only [getCachedExpr, cachedSort, sortsOf]
  cases look l with
  | none => exact .throw
  | some entry => exact (Maps.insert entry.2).bind fun _ => Maps.pure entry.1

lemma made_sort {made : Option (Expr Name)} {s : Option Srt} (same : made.map (·.sort) = s) :
    (made.map some).map (Option.map (·.sort)) = s.map some := by
  rw [← same]
  cases made <;> rfl

lemma overArith_sort (op : Arith) (a b : Expr Name) :
    (Z3Parser.overArith op a b).map (Option.map (·.sort)) = overArith a.sort b.sort := by
  obtain ⟨_ | w, t⟩ := a <;> obtain ⟨_ | _, t'⟩ := b
  · rfl
  · rfl
  · rfl
  · exact made_sort (sort_arith op ⟨_, t⟩ ⟨_, t'⟩)

lemma overOrder_sort (op : Order) (a b : Expr Name) :
    (Z3Parser.overOrder op a b).map (Option.map (·.sort)) = overOrder a.sort b.sort := by
  obtain ⟨_ | w, t⟩ := a <;> obtain ⟨_ | _, t'⟩ := b
  · rfl
  · rfl
  · rfl
  · exact made_sort (sort_order op ⟨_, t⟩ ⟨_, t'⟩)

lemma overNeg_sort (a : Expr Name) :
    (Z3Parser.overNeg a).map (Option.map (·.sort)) = overNeg a.sort := by
  obtain ⟨_ | w, t⟩ := a
  · rfl
  · exact made_sort (sort_neg ⟨_, t⟩)

lemma overBits_sort (logic : Logic) (op : Arith) (a b : Expr Name) :
    (Z3Parser.overBits logic op a b).map (Option.map (·.sort)) = overBits a.sort b.sort := by
  simp only [Z3Parser.overBits]
  have bits := made_sort (sort_arith op a b)
  have bools := made_sort (sort_logic logic a b)
  cases sa : a.sort with
  | bool =>
    cases sb : b.sort with
    | bool =>
      rw [sa, sb] at bools
      exact bools
    | bv w =>
      rw [sa, sb] at bits
      exact bits
  | bv w =>
    rw [sa] at bits
    cases sb : b.sort with
    | bool | bv w' =>
      rw [sb] at bits
      exact bits

lemma getCmd_sort (a b : Expr Name) (q : Predicate) :
    (Z3Parser.getCmd a b q).map (Option.map (·.sort)) = getCmd a.sort b.sort q := by
  cases q with
  | bveq => exact made_sort (sort_equal a b)
  | bvneq => exact made_sort (sort_distinct a b)
  | bvugt | bvuge | bvult | bvule => exact made_sort (sort_order _ a b)
  | bvsgt | bvsge | bvslt | bvsle => exact overOrder_sort _ a b
  | other n => rfl

lemma common_sort (r : LabelInfo) (a b : Expr Name) :
    (Z3Parser.common r a b).map (Option.map (·.sort)) = common r a.sort b.sort := by
  simp only [Z3Parser.common, common]
  cases r.op with
  | and | or =>
    dsimp only
    split
    · exact overBits_sort _ _ a b
    · exact made_sort (sort_logic _ a b)
  | xor => exact overBits_sort _ _ a b
  | shl | lshr | ashr | udiv | urem | srem => exact made_sort (sort_arith _ a b)
  | add | sub | mul | sdiv => exact overArith_sort _ a b
  | icmp q => exact getCmd_sort a b q
  | concat => exact made_sort (sort_concat b a)
  | _ => rfl

lemma asBits_sort (e : Expr Name) : (asBits e).map (·.sort) = some (.bv e.sort.width) := by
  obtain ⟨s, t⟩ := e
  cases s with
  | bool | bv w => rfl

lemma fixSize_sort (op : Operator) (size : Nat) (e : Expr Name) :
    (Z3Parser.fixSize op size e).map (·.sort) = fixSize op size e.sort := by
  have narrow := sort_extract (size - 1) 0 e
  obtain ⟨sort, t⟩ := e
  cases sort with
  | bool => rfl
  | bv w =>
    have wide := sort_zext (w + (size - w % 256)) ⟨.bv w, t⟩
    simp only [Z3Parser.fixSize, fixSize]
    split
    · rfl
    split
    · exact narrow
    · split
      · exact wide
      · rfl

lemma loadBytes_sort (input offset n : Nat) :
    (loadBytes input offset n).map (·.sort) = some (.bv (8 * (n + 1))) := by
  induction n with
  | zero => rfl
  | succ n ih =>
    obtain ⟨_, made, sort⟩ := Option.map_eq_some_iff.mp ih
    simp only [loadBytes, made, Option.bind_some, sort_concat, sort, Expr.const_sort,
      concat]
    congr 2
    omega

lemma readConcrete_sort (content : Option (Nat → BitVec 8)) (size : Nat) :
    (Z3Parser.readConcrete content size).map (·.sort) = readConcrete content.isSome size := by
  rcases content with _ | bytes
  · rfl
  simp only [Z3Parser.readConcrete, readConcrete, Option.bind_some]
  split
  · rfl
  generalize size - 1 = n
  induction n with
  | zero => rfl
  | succ n ih =>
    obtain ⟨out, made, sort⟩ := Option.map_eq_some_iff.mp ih
    rw [List.range_succ, List.foldl_append, List.foldl_cons, made]
    have wider := sort_concat (⟨.bv 8, .num 8 (bytes (n + 1)).toNat⟩ : Expr Name) out
    rw [sort] at wider
    refine wider.trans ?_
    simp only [concat]
    congr 2
    omega

lemma bvConst_sort (x : Name) (size : Nat) :
    (bvConst x size).map (·.sort) = num size := by
  simp only [bvConst, num]
  split
  · rfl
  · rfl

def memcmpOf (a b : Expr Name) : Made :=
  (a.equal b).bind fun same => (Expr.num 0 32).bind fun zero =>
    (Expr.num 1 32).bind fun one => (same.ite zero one).map some

lemma memcmpOf_sort (a b : Expr Name) : (memcmpOf a b).map (Option.map (·.sort)) =
    (equal a.sort b.sort).map fun _ => some (.bv 32) := by
  rw [← sort_equal a b, memcmpOf]
  cases made : a.equal b with
  | none => rfl
  | some same =>
    obtain ⟨_, t⟩ := same
    cases (Expr.equal_some made).2.1
    rfl

lemma operand_maps (r : LabelInfo) (label const size : Nat) :
    Maps (·.sort) (Z3Parser.operand p look r label const size)
      (operand (sortsOf look) r label size) := by
  refine (Maps.lift (sort_num const size)).bind fun value => ?_
  refine Maps.ite ?_ (Maps.ite ?_ ?_)
  · refine (getCachedExpr_maps label).bind fun e => .lift ?_
    rw [fixSize_sort, p.simplify.sort_run]
  · exact .pure (f := (Expr.sort : Expr Name → Srt)) (Expr.truth (decide (const = 1)))
  · exact .pure (f := (Expr.sort : Expr Name → Srt)) value

lemma translate_maps (p : Parser) (look : Lookup) (content : Option (Nat → BitVec 8)) (l : Nat) :
    Maps (Option.map (·.sort)) (translate p look content l)
      (sortLabel p (sortsOf look) content.isSome l) := by
  refine (Maps.liftSame (p.getLabelInfo l)).bind fun r => ?_
  rw [id_eq]
  cases r.op with
  | input => exact (Maps.insert _).bind fun _ => Maps.pure (some (Expr.const _ 8))
  | load =>
    refine (Maps.liftSame (p.getLabelInfo r.l1)).bind fun first => ?_
    refine (Maps.insert _).bind fun _ => ?_
    have sort := made_sort (loadBytes_sort (first.op2 % 2 ^ 32) (first.op1 % 2 ^ 32) (r.l2 - 1))
    exact .lift sort
  | zext =>
    refine (getCachedExpr_maps r.l1).bind fun base => .lift ?_
    obtain ⟨bits, made, sort⟩ := Option.map_eq_some_iff.mp (asBits_sort base)
    rw [made, ← sort]
    exact made_sort (sort_zext r.size bits)
  | sext =>
    exact (getCachedExpr_maps r.l1).bind fun base =>
      .lift (made_sort (sort_sext r.size base))
  | trunc | extract =>
    exact (getCachedExpr_maps r.l1).bind fun base =>
      .lift (made_sort (sort_extract _ _ base))
  | intToPtr => exact (getCachedExpr_maps r.l1).bind fun e => .pure (some e)
  | not =>
    exact .ite .throw ((getCachedExpr_maps r.l2).bind fun e =>
      .lift (made_sort (sort_lnot e)))
  | neg =>
    exact .ite .throw ((getCachedExpr_maps r.l2).bind fun e => .lift (overNeg_sort e))
  | fmemcmp =>
    have rest : ∀ a : Expr Name, Maps (Option.map (·.sort))
        (if r.l2 < 1 then Build.throw else getCachedExpr look r.l2 >>= fun b =>
          lift (memcmpOf a b))
        (if r.l2 < 1 then Build.throw else cachedSort (sortsOf look) r.l2 >>= fun b =>
          lift ((equal a.sort b).map fun _ => some (.bv 32))) :=
      fun a => .ite .throw ((getCachedExpr_maps r.l2).bind fun b =>
        .lift (memcmpOf_sort a b))
    exact .ite ((getCachedExpr_maps r.l1).bind rest)
      ((Maps.lift (readConcrete_sort content r.size)).bind rest)
  | fsize =>
    refine (Maps.lift (bvConst_sort .fsize r.size)).bind fun base => ?_
    refine Maps.ite ?_ (Maps.pure (some base))
    exact (Maps.lift (sort_num r.op1 r.size)).bind fun offset =>
      .lift (overArith_sort .sub base offset)
  | fatoi =>
    refine (Maps.liftSame (p.getLabelInfo r.l2)).bind fun src => ?_
    exact (Maps.liftSame (p.getLabelInfo src.l1)).bind fun first =>
      .lift (made_sort (bvConst_sort _ r.size))
  | alloca | free => exact .pure none
  | _ =>
    refine (Maps.liftSame (constSize p r r.l1 r.l2 (r.size % 256))).bind fun size1 => ?_
    refine (operand_maps r r.l1 r.op1 size1).bind fun a => ?_
    refine (Maps.liftSame (constSize p r r.l2 r.l1 size1)).bind fun size2 => ?_
    exact (operand_maps r r.l2 r.op2 size2).bind fun b => Maps.lift (common_sort r a b)

end Translate

/-! ## The table -/

/-- What an operand is looked up as. -/
def entrySort : Option (Option Srt) × Deps → Option (Srt × Deps)
  | (some (some s), ds) => some (s, ds)
  | _ => none

/-- The sort and the dependencies of a label; label 0 is cached as null. -/
def labelSort (p : Parser) (known : Nat → Bool) : Nat → Option (Option Srt) × Deps :=
  ScanTables.value (fun l earlier =>
    if l = 0 then (some none, ∅)
    else sortLabel p (fun k => entrySort (earlier k)) (known l) l ∅) (none, ∅)

lemma labelSort_eq (p : Parser) (known : Nat → Bool) {l : Nat} (ne : l ≠ 0) :
    labelSort p known l = sortLabel p (fun k =>
      if k < l then entrySort (labelSort p known k) else none) (known l) l ∅ := by
  rw [labelSort, ScanTables.value_eq, if_neg ne]
  congr 1
  funext k
  dsimp only
  split
  · rfl
  · rfl

end Z3Sorts
